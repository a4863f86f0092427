import Argennon.Storage.Page
import Argennon.Heap.ChunkDeltaFormat

/- `Page::applyDelta` updates the page in place before it knows that the delta is valid. A rejected
   delta leaves the page as it was exactly if each update it has come to writes what is there, and
   so a sequence of rejected deltas does. -/
namespace Argennon

/-- The state is kept, and what is returned, if anything, has `after`. -/
def StateKept {α β : Type} (s : α) (after : β → Prop) (r : α × Except Exn β) : Prop :=
  r.1 = s ∧ ∀ b, r.2 = .ok b → after b

theorem stateKept_error {α β : Type} {s s' : α} {after : β → Prop} {e : Exn} :
    StateKept s after (s', .error e) ↔ s' = s := by
  unfold StateKept
  constructor
  · exact And.left
  · intro h
    exact ⟨h, fun b hb => by cases hb⟩

theorem stateKept_ok {α β : Type} {s s' : α} {after : β → Prop} {b : β} :
    StateKept s after (s', .ok b) ↔ s' = s ∧ after b := by
  unfold StateKept
  constructor
  · intro h
    exact ⟨h.1, h.2 b rfl⟩
  · rintro ⟨h, hb⟩
    refine ⟨h, fun b' hb' => ?_⟩
    obtain rfl := Except.ok.inj hb'
    exact hb

/-! ## Chunks -/

/-- What the loop of `Chunk::applyDelta` copies is what is there,
and `after` holds of what is left behind it. -/
def BlocksKeep (size : Nat) (content : List Byte) (after : List Byte → Prop) :
    Nat → Nat → List Byte → Prop
  | 0, _, delta => after delta
  | n + 1, offset, delta =>
    match Chunk.nextBlock size offset delta with
    | .error _ => True
    | .ok (none, delta) => after delta
    | .ok (some (offset, blockSize), delta) =>
      blockSize ≤ delta.length → readAt content offset blockSize = delta.take blockSize ∧
        BlocksKeep size content after n (offset + blockSize) (delta.drop blockSize)

/-- The delta, as far as it is read, copies what is there into the chunk, and takes neither its size
nor memory from it. -/
def Chunk.Keeps (c : Chunk) (after : List Byte → Prop) (delta : List Byte) : Prop :=
  if delta = [] then after delta
  else match varUIntTrie.decodeVarUIntAt delta with
    | .error _ => True
    | .ok (number, tail) =>
      c.chunkSize ^^^ number ≤ maxAllowedCapacity → c.chunkSize ^^^ number ≤ c.capacity ∧
        BlocksKeep (c.chunkSize ^^^ number) c.content (fun rest =>
          (number = 0 ∧ c.capacity = c.chunkSize) ∧ after rest) tail.length 0 tail

theorem writeAt_eq_self_iff {mem bytes : List Byte} {offset : Nat}
    (hin : offset + bytes.length ≤ mem.length) :
    writeAt mem offset bytes = mem ↔ readAt mem offset bytes.length = bytes := by
  constructor
  · intro h
    rw [← h]
    apply List.ext_getElem?
    intro i
    rw [readAt_getElem?]
    split
    · rename_i hi
      rw [List.getD_eq_getElem?_getD, writeAt_getElem?, List.getElem?_eq_getElem (by omega),
        List.getElem?_eq_getElem hi]
      simp only [Option.map_some, Nat.le_add_right, if_true, Nat.add_sub_cancel_left,
        Option.getD_some]
      rw [List.getD_eq_getElem _ _ hi]
    · rw [List.getElem?_eq_none (by omega)]
  · intro h
    apply List.ext_getElem?
    intro i
    by_cases hi : offset ≤ i ∧ i < offset + bytes.length
    · have hread := congrArg (fun l : List Byte => l[i - offset]?) h
      have hoffset : offset + (i - offset) = i := by omega
      simp only [readAt_getElem?, if_pos (show i - offset < bytes.length by omega),
        hoffset] at hread
      rw [writeAt_getElem?, List.getElem?_eq_getElem (by omega), Option.map_some, if_pos hi.1,
        List.getD_eq_getElem?_getD, ← hread,
        Option.getD_some, List.getD_eq_getElem _ _ (by omega)]
    · exact writeAt_frame (by omega)

theorem cutBlock_bounds {size offset blockSize start k : Nat}
    (h : Chunk.cutBlock size offset blockSize = some (start, k)) :
    start = offset ∧ start + k ≤ size := by
  unfold Chunk.cutBlock at h
  split at h
  · split at h
    · obtain ⟨rfl, rfl⟩ := Prod.mk.inj (Option.some.inj h)
      omega
    · cases h
  · obtain ⟨rfl, rfl⟩ := Prod.mk.inj (Option.some.inj h)
    omega

theorem nextBlock_bounds {size offset start k : Nat} {delta next : List Byte}
    (h : Chunk.nextBlock size offset delta = .ok (some (start, k), next)) :
    offset ≤ start ∧ start + k ≤ size := by
  generalize hr : some (start, k) = r at h
  cases nextBlock_iff.mp h with
  | finished => cases hr
  | terminator => cases hr
  | block =>
    obtain ⟨hstart, hk⟩ := cutBlock_bounds hr.symm
    omega

/-- Blocks are in the order of their offsets: nothing is written before the offset. -/
theorem applyBlocks_frame {size i : Nat} :
    ∀ {n offset : Nat} {content delta : List Byte}, i < offset →
    (Chunk.applyBlocks size n offset content delta).1[i]? = content[i]?
  | 0, _, _, _, _ => rfl
  | n + 1, offset, content, delta, hi => by
    unfold Chunk.applyBlocks
    split
    · rfl
    · rfl
    · rename_i start k next hround
      split
      · rfl
      · obtain ⟨hstart, -⟩ := nextBlock_bounds hround
        rw [applyBlocks_frame (by omega), writeAt_frame (by omega)]

/-- The content is kept exactly if each block writes what is there. -/
theorem blocksKeep_iff {size : Nat} {content : List Byte} {after : List Byte → Prop}
    (hsize : size ≤ content.length) :
    ∀ {n offset : Nat} {delta : List Byte},
      BlocksKeep size content after n offset delta ↔
        StateKept content after (Chunk.applyBlocks size n offset content delta)
  | 0, _, delta => by
    unfold BlocksKeep Chunk.applyBlocks
    rw [stateKept_ok, and_iff_right rfl]
  | n + 1, offset, delta => by
    unfold BlocksKeep Chunk.applyBlocks
    cases hround : Chunk.nextBlock size offset delta with
    | error e =>
      dsimp only
      rw [stateKept_error, iff_true_intro rfl]
    | ok round =>
      obtain ⟨block, next⟩ := round
      cases block with
      | none =>
        dsimp only
        rw [stateKept_ok, and_iff_right rfl]
      | some block =>
        obtain ⟨start, k⟩ := block
        obtain ⟨hstart, hk⟩ := nextBlock_bounds hround
        dsimp only
        by_cases hlength : k ≤ next.length
        · have htake : (next.take k).length = k := by
            rw [List.length_take]
            exact Nat.min_eq_left hlength
          have hsame : writeAt content start (next.take k) = content ↔ _ :=
            writeAt_eq_self_iff (by omega)
          rw [htake] at hsame
          rw [if_neg (Nat.not_lt.mpr hlength), iff_true_intro hlength, true_imp_iff]
          constructor
          · rintro ⟨hread, hrest⟩
            rw [hsame.mpr hread]
            exact (blocksKeep_iff hsize).mp hrest
          · intro hkept
            have hwrite : writeAt content start (next.take k) = content := by
              apply List.ext_getElem?
              intro i
              obtain hi | hi := Nat.lt_or_ge i (start + k)
              · rw [← applyBlocks_frame hi, hkept.1]
              · exact writeAt_frame (by omega)
            rw [hwrite] at hkept
            exact ⟨hsame.mp hwrite, (blocksKeep_iff hsize).mpr hkept⟩
        · rw [if_pos (Nat.not_le.mp hlength), stateKept_error, iff_true_intro rfl]
          exact iff_true_intro fun h => absurd h hlength

theorem Chunk.eq_of_fields {c c' : Chunk} (hcontent : c.content = c'.content)
    (hsize : c.chunkSize = c'.chunkSize)
    (hwritable : c.writable = c'.writable) : c = c' := by
  cases c
  cases c'
  simp_all

theorem xor_eq_left_iff {a b : Nat} : a ^^^ b = a ↔ b = 0 := by
  constructor
  · intro h
    rw [← Nat.zero_xor b, ← Nat.xor_self a, Nat.xor_assoc, h]
  · rintro rfl
    exact Nat.xor_zero a

theorem reserveSpace_cases {c reserved : Chunk} {n : Nat} (h : c.reserveSpace n = .ok reserved) :
    n ≤ maxAllowedCapacity ∧
      (n ≤ c.capacity ∧ reserved = c ∨ c.capacity < n ∧ reserved.content.length = n) := by
  unfold Chunk.reserveSpace at h
  split at h
  · rename_i hallowed
    refine ⟨hallowed, ?_⟩
    split at h
    · rename_i hle
      exact Or.inl ⟨hle, (Except.ok.inj h).symm⟩
    · rename_i hgrows
      obtain rfl := Except.ok.inj h
      have hsize := c.size_le
      refine Or.inr ⟨Nat.not_le.mp hgrows, ?_⟩
      simp only [Chunk.resize, List.length_append, List.length_take, List.length_replicate]
      omega
  · cases h

theorem applyReserved_stateKept (c : Chunk) {size : Nat} (h : size ≤ c.content.length)
    {after : List Byte → Prop} {delta : List Byte} :
    StateKept c after (c.applyReserved size h delta) ↔
      StateKept c.content (fun rest => (size = c.chunkSize ∧ c.capacity = c.chunkSize) ∧ after rest)
        (Chunk.applyBlocks size delta.length 0 c.content delta) := by
  have hlength := Chunk.applyBlocks_length size delta.length 0 c.content delta
  cases happlied : c.applyReserved size h delta with
  | mk c' result =>
    cases result with
    | error e =>
      obtain ⟨hblocks, hsize, hwritable, hcontent⟩ := Chunk.applyReserved_error happlied
      rw [← Prod.eta (Chunk.applyBlocks size delta.length 0 c.content delta), hblocks,
        stateKept_error, stateKept_error, ← hcontent]
      constructor
      · intro heq
        rw [heq]
      · intro heq
        exact Chunk.eq_of_fields heq hsize hwritable
    | ok next =>
      obtain ⟨hblocks, hsize, hwritable, hcontent⟩ := Chunk.applyReserved_ok happlied
      rw [← Prod.eta (Chunk.applyBlocks size delta.length 0 c.content delta), hblocks, stateKept_ok,
        stateKept_ok]
      constructor
      · rintro ⟨rfl, hafter⟩
        have htake := congrArg List.length hcontent
        rw [List.length_take, hlength] at htake
        have hcapacity : c'.content.length = size := by omega
        rw [List.take_of_length_le (by omega)] at hcontent
        exact ⟨hcontent.symm, ⟨hsize.symm, hcapacity.trans hsize.symm⟩, hafter⟩
      · rintro ⟨hsame, ⟨hsize', hcapacity⟩, hafter⟩
        refine ⟨Chunk.eq_of_fields ?_ (hsize.trans hsize') hwritable, hafter⟩
        rw [hcontent, hsame]
        exact List.take_of_length_le (Nat.le_of_eq (hcapacity.trans hsize'.symm))

theorem applyReserved_length {c : Chunk} {size : Nat} {h : size ≤ c.content.length}
    {delta : List Byte} (hlength : c.content.length = size) :
    (c.applyReserved size h delta).1.content.length = size := by
  have hblocks := Chunk.applyBlocks_length size delta.length 0 c.content delta
  cases happlied : c.applyReserved size h delta with
  | mk c' result =>
    cases result with
    | error e => rw [(Chunk.applyReserved_error happlied).2.2.2, hblocks, hlength]
    | ok next =>
      rw [(Chunk.applyReserved_ok happlied).2.2.2, List.length_take, hblocks, hlength]
      exact Nat.min_self size

/-- The chunk is kept exactly if each update writes what is there. -/
theorem Chunk.keeps_iff (c : Chunk) {after : List Byte → Prop} {delta : List Byte} :
    c.Keeps after delta ↔ StateKept c after (c.applyDelta delta) := by
  unfold Chunk.Keeps Chunk.applyDelta
  by_cases hnil : delta = []
  · rw [if_pos hnil, if_pos hnil, stateKept_ok, and_iff_right rfl]
  · rw [if_neg hnil, if_neg hnil]
    cases hread : varUIntTrie.decodeVarUIntAt delta with
    | error e =>
      dsimp only
      rw [stateKept_error, iff_true_intro rfl]
    | ok round =>
      obtain ⟨number, tail⟩ := round
      dsimp only
      split
      · rename_i hfails
        rw [stateKept_error, iff_true_intro rfl]
        apply iff_true_intro
        intro hallowed
        obtain ⟨_, hreserve, -⟩ :=
          (reserveSpace_content hallowed : ∃ reserved, c.reserveSpace _ = .ok reserved ∧ _)
        cases hfails.symm.trans hreserve
      · rename_i reserved hreserve
        obtain ⟨hallowed, ⟨hle, rfl⟩ | ⟨hgrows, hlength⟩⟩ := reserveSpace_cases hreserve
        · rw [applyReserved_stateKept, ← blocksKeep_iff hle, iff_true_intro hallowed,
            iff_true_intro hle, true_imp_iff, true_and]
          simp only [xor_eq_left_iff]
        · constructor
          · intro hkeeps
            exact absurd (hkeeps hallowed).1 (Nat.not_le.mpr hgrows)
          · intro hkept
            have hgrown : (reserved.applyReserved (c.chunkSize ^^^ number)
              (Chunk.reserveSpace_le hreserve) tail).1.content.length =
                c.chunkSize ^^^ number := applyReserved_length hlength
            rw [hkept.1] at hgrown
            exact absurd (Nat.le_of_eq hgrown.symm) (Nat.not_le.mpr hgrows)

namespace Asa

/-! ## Migrants -/

/-- The delta, as far as it is read, keeps the chunks. -/
def MigrantsKeep : List (Migrant Chunk) → List Byte → Prop
  | [] => fun _ => True
  | m :: migrants => m.chunk.Keeps (MigrantsKeep migrants)

theorem migrantsKeep_iff : ∀ {migrants : List (Migrant Chunk)} {reader : List Byte},
    MigrantsKeep migrants reader ↔ (Page.applyMigrants migrants reader).1 = migrants
  | [], _ => iff_of_true trivial rfl
  | m :: migrants, reader => by
    rw [MigrantsKeep, Chunk.keeps_iff, Page.applyMigrants]
    cases m.chunk.applyDelta reader with
    | mk chunk result =>
      cases result with
      | error e =>
        dsimp only
        rw [stateKept_error]
        constructor
        · rintro rfl
          rfl
        · intro h
          exact congrArg Migrant.chunk (List.cons.inj h).1
      | ok reader =>
        dsimp only
        rw [stateKept_ok, migrantsKeep_iff]
        constructor
        · rintro ⟨rfl, h⟩
          rw [h]
        · intro h
          obtain ⟨hm, hmigrants⟩ := List.cons.inj h
          exact ⟨congrArg Migrant.chunk hm, hmigrants⟩

theorem applyMigrants_ids : ∀ (migrants : List (Migrant Chunk)) (reader : List Byte),
    (Page.applyMigrants migrants reader).1.map Migrant.id = migrants.map Migrant.id
  | [], _ => rfl
  | m :: migrants, reader => by
    rw [Page.applyMigrants]
    cases m.chunk.applyDelta reader with
    | mk chunk result =>
      cases result with
      | error e => rfl
      | ok reader => exact congrArg (m.id :: ·) (applyMigrants_ids migrants reader)

/-! ## Identifiers -/

/-- The delta, as far as it is read, adds no migrant and gives the migrants the identifiers they
have; `after` holds of what is left behind the identifiers. -/
def IDsKeep (migrants : List (Migrant Chunk)) (after : List Byte → Prop) :
    Nat → Int → List Byte → Prop
  | 0, _, _ => True
  | n + 1, index, reader =>
    match Page.nextID migrants.length index reader with
    | .error _ => True
    | .ok (none, reader) => after reader
    | .ok (some (index, id), reader) =>
      (migrants.map Migrant.id)[index]? = some id ∧ IDsKeep migrants after n index reader

theorem nextID_bounds {count index' : Nat} {index : Int} {reader next : List Byte}
    {id : VarLenFullID}
    (h : Page.nextID count index reader = .ok (some (index', id), next)) :
    index < index' ∧ index' ≤ count := by
  unfold Page.nextID at h
  obtain ⟨⟨indexDiff, tail⟩, -, hround⟩ := bind_ok.mp h
  dsimp only at hround
  split at hround
  · cases hround
  · rename_i hdiff
    split at hround
    · rename_i hcount
      obtain ⟨⟨id', next'⟩, -, hlast⟩ := bind_ok.mp hround
      obtain ⟨hsome, -⟩ := Prod.mk.inj (Except.ok.inj hlast)
      obtain ⟨rfl, -⟩ := Prod.mk.inj (Option.some.inj hsome)
      omega
    · split at hround
      · cases hround
      · split at hround
        · cases hround
        · obtain ⟨⟨id', next'⟩, -, hlast⟩ := bind_ok.mp hround
          dsimp only at hlast
          split at hlast
          · obtain ⟨hsome, -⟩ := Prod.mk.inj (Except.ok.inj hlast)
            obtain ⟨rfl, -⟩ := Prod.mk.inj (Option.some.inj hsome)
            omega
          · cases hlast

theorem setID_frame {migrants : List (Migrant Chunk)} {index i : Nat} {id : VarLenFullID}
    (hi : i < migrants.length) (hne : i ≠ index) :
    (Page.setID migrants index id)[i]? = migrants[i]? := by
  unfold Page.setID
  split
  · exact List.getElem?_append_left hi
  · simp only [List.getElem?_modify, if_neg (Ne.symm hne), Option.map_eq_map, Option.map_id']

theorem modifyID_chunks (migrants : List (Migrant Chunk)) (index : Nat) (id : VarLenFullID) :
    (migrants.modify index fun m => { m with id }).map Migrant.chunk =
    migrants.map Migrant.chunk := by
  apply List.ext_getElem?
  intro i
  rw [List.getElem?_map, List.getElem?_modify, List.getElem?_map, Option.map_eq_map, Option.map_map]
  congr 1
  funext m
  dsimp only [Function.comp]
  split <;> rfl

theorem setID_chunks (migrants : List (Migrant Chunk)) (index : Nat) (id : VarLenFullID) :
    migrants.map Migrant.chunk <+: (Page.setID migrants index id).map Migrant.chunk := by
  unfold Page.setID
  split
  · rw [List.map_append]
    exact List.prefix_append _ _
  · exact ⟨[], by rw [modifyID_chunks, List.append_nil]⟩

theorem setID_eq_self_iff {migrants : List (Migrant Chunk)} {index : Nat} {id : VarLenFullID}
    (hle : index ≤ migrants.length) :
    Page.setID migrants index id = migrants ↔ (migrants.map Migrant.id)[index]? = some id := by
  unfold Page.setID
  split
  · rename_i hcount
    rw [List.getElem?_eq_none (by rw [List.length_map]; omega)]
    apply iff_of_false _ (by simp)
    intro h
    have hlength := congrArg List.length h
    rw [List.length_append, List.length_singleton] at hlength
    omega
  · rename_i hcount
    have hin : index < migrants.length := by omega
    rw [List.getElem?_map, List.getElem?_eq_getElem hin, Option.map_some, Option.some.injEq]
    constructor
    · intro h
      have hget := congrArg (fun l : List (Migrant Chunk) => l[index]?) h
      simp only [List.getElem?_modify, if_true, List.getElem?_eq_getElem hin, Option.map_eq_map,
        Option.map_some, Option.some.injEq] at hget
      exact (congrArg Migrant.id hget).symm
    · intro h
      apply List.ext_getElem?
      intro i
      rw [List.getElem?_modify]
      split
      · rename_i heq
        subst heq
        rw [List.getElem?_eq_getElem hin, Option.map_eq_map, Option.map_some, ← h]
      · rw [Option.map_eq_map, Option.map_id']

/-- Chunks stay at their places, and indices grow:
the migrants up to the index are left as they are. -/
theorem applyIDs_frame :
    ∀ {n : Nat} {index : Int} {migrants : List (Migrant Chunk)} {reader : List Byte},
    migrants.map Migrant.chunk <+: (Page.applyIDs n index migrants reader).1.map Migrant.chunk ∧
      ∀ i : Nat, (i : Int) ≤ index → i < migrants.length →
        (Page.applyIDs n index migrants reader).1[i]? = migrants[i]?
  | 0, _, _, _ => ⟨List.prefix_refl _, fun _ _ _ => rfl⟩
  | n + 1, index, migrants, reader => by
    unfold Page.applyIDs
    split
    · exact ⟨List.prefix_refl _, fun _ _ _ => rfl⟩
    · exact ⟨List.prefix_refl _, fun _ _ _ => rfl⟩
    · rename_i index' id next hround
      obtain ⟨hlt, hle⟩ := nextID_bounds hround
      have hchunks := setID_chunks migrants index' id
      have hlength := hchunks.length_le
      rw [List.length_map, List.length_map] at hlength
      have hframe : (Page.setID migrants index' id).map Migrant.chunk <+:
          (Page.applyIDs n index' (Page.setID migrants index' id) next).1.map Migrant.chunk ∧ _ :=
            applyIDs_frame
      obtain ⟨hrest, hids⟩ := hframe
      refine ⟨hchunks.trans hrest, fun i hi hin => ?_⟩
      rw [hids i (by omega) (by omega), setID_frame hin (by omega)]

/-- The migrants are kept exactly if each identifier that is set is the one that is there. -/
theorem idsKeep_iff {after : List Byte → Prop} :
    ∀ {n : Nat} {index : Int} {migrants : List (Migrant Chunk)} {reader : List Byte},
    IDsKeep migrants after n index reader ↔
      StateKept migrants after (Page.applyIDs n index migrants reader)
  | 0, _, _, _ => by
    unfold IDsKeep Page.applyIDs
    rw [stateKept_error, iff_true_intro rfl]
  | n + 1, index, migrants, reader => by
    unfold IDsKeep Page.applyIDs
    cases hround : Page.nextID migrants.length index reader with
    | error e =>
      dsimp only
      rw [stateKept_error, iff_true_intro rfl]
    | ok round =>
      obtain ⟨block, next⟩ := round
      cases block with
      | none =>
        dsimp only
        rw [stateKept_ok, and_iff_right rfl]
      | some block =>
        obtain ⟨index', id⟩ := block
        obtain ⟨hlt, hle⟩ := nextID_bounds hround
        dsimp only
        have hset : Page.setID migrants index' id = migrants ↔
            (migrants.map Migrant.id)[index']? = some id := setID_eq_self_iff hle
        constructor
        · rintro ⟨hid, hrest⟩
          rw [hset.mpr hid]
          exact idsKeep_iff.mp hrest
        · intro hkept
          have hframe : (Page.setID migrants index' id).map Migrant.chunk <+:
              (Page.applyIDs n index' (Page.setID migrants index' id) next).1.map Migrant.chunk ∧
                _ := applyIDs_frame
          obtain ⟨hchunks, hids⟩ := hframe
          have hlength := hchunks.length_le
          have hmore := (setID_chunks migrants index' id).length_le
          rw [hkept.1, List.length_map, List.length_map] at hlength
          rw [List.length_map, List.length_map] at hmore
          -- later rounds set later identifiers only, so this one was not changed either
          have hsame : Page.setID migrants index' id = migrants := by
            apply List.ext_getElem?
            intro i
            obtain hi | hi := Nat.lt_or_ge i migrants.length
            · by_cases hle' : i ≤ index'
              · have hnext := hids i (by omega)
                rw [hkept.1] at hnext
                by_cases heq : i = index'
                · exact (hnext (by omega)).symm
                · exact setID_frame hi heq
              · exact setID_frame hi (by omega)
            · rw [List.getElem?_eq_none hi, List.getElem?_eq_none (by omega)]
          rw [hsame] at hkept
          exact ⟨hset.mp hsame, idsKeep_iff.mpr hkept⟩

/-! ## Pages -/

variable {D : Type} [DecidableEq D] {calculator : DigestCalculator D} {pageID : VarLenFullID}

/-- The delta, as far as it is read, writes what is in the page. -/
def Page.Keeps (page : Page Chunk) (content : List Byte) : Prop :=
  IDsKeep page.migrants (page.native.Keeps (MigrantsKeep page.migrants)) content.length (-1) content

/-- Migrants with the chunks and the identifiers of a page. -/
theorem migrants_eq {migrants migrants' : List (Migrant Chunk)}
    (hids : migrants.map Migrant.id = migrants'.map Migrant.id)
    (hchunks : migrants.map Migrant.chunk = migrants'.map Migrant.chunk) :
    migrants = migrants' := by
  induction migrants generalizing migrants' with
  | nil => exact (List.map_eq_nil_iff.mp hids.symm).symm
  | cons m migrants ih =>
    cases migrants' with
    | nil => cases hids
    | cons m' migrants' =>
      obtain ⟨hid, hids⟩ := List.cons.inj hids
      obtain ⟨hchunk, hchunks⟩ := List.cons.inj hchunks
      rw [ih hids hchunks]
      cases m
      cases m'
      dsimp only at hid hchunk
      rw [hid, hchunk]

/-- If the last loop leaves the migrants of the page, the first one does. -/
theorem applyMigrants_applyIDs {n : Nat} {index : Int} {migrants : List (Migrant Chunk)}
    {reader reader' : List Byte}
    (h : (Page.applyMigrants (Page.applyIDs n index migrants reader).1 reader').1 = migrants) :
    (Page.applyIDs n index migrants reader).1 = migrants := by
  have hids := applyMigrants_ids (Page.applyIDs n index migrants reader).1 reader'
  rw [h] at hids
  have hlength := congrArg List.length hids
  rw [List.length_map, List.length_map] at hlength
  have hchunks : migrants.map Migrant.chunk <+:
      (Page.applyIDs n index migrants reader).1.map Migrant.chunk := (applyIDs_frame).1
  have hsame := hchunks.eq_of_length (by rw [List.length_map, List.length_map, hlength])
  exact migrants_eq hids.symm hsame.symm

theorem page_eq_iff {page : Page Chunk} {native : Chunk} {migrants : List (Migrant Chunk)} :
    { page with native, migrants } = page ↔ native = page.native ∧ migrants = page.migrants := by
  constructor
  · intro h
    exact ⟨congrArg Page.native h, congrArg Page.migrants h⟩
  · rintro ⟨rfl, rfl⟩
    rfl

/-- A delta that is rejected leaves the page as it was exactly if what it has written was there. -/
theorem Page.applyDelta_error_iff {page : Page Chunk} {delta : Delta D}
    {blockNumber : Int} {e : Exn} :
    (page.applyDelta calculator pageID delta blockNumber).2 = .error e →
      ((page.applyDelta calculator pageID delta blockNumber).1 = page ↔
        page.Keeps delta.content) := by
  unfold Page.Keeps Page.applyDelta
  rw [idsKeep_iff]
  by_cases hnil : delta.content = []
  · rw [if_pos hnil]
    intro h
    cases h
  · rw [if_neg hnil]
    have hfirst : ∀ {reader' : List Byte},
      (Page.applyMigrants (Page.applyIDs delta.content.length (-1) page.migrants delta.content).1
        reader').1 = page.migrants → _ := applyMigrants_applyIDs
    cases hids : Page.applyIDs delta.content.length (-1) page.migrants delta.content with
    | mk migrants result =>
      rw [hids] at hfirst
      cases result with
      | error e' =>
        intro _
        rw [stateKept_error]
        exact page_eq_iff.trans (and_iff_right rfl)
      | ok reader =>
        dsimp only
        rw [stateKept_ok, Chunk.keeps_iff]
        cases page.native.applyDelta reader with
        | mk native result =>
          cases result with
          | error e' =>
            intro _
            rw [stateKept_error]
            exact page_eq_iff.trans and_comm
          | ok reader' =>
            -- the later identifiers and chunks cannot restore a migrant that was changed
            have hlast : native = page.native ∧
                (Page.applyMigrants migrants reader').1 = page.migrants ↔
                  migrants = page.migrants ∧
                    StateKept page.native (MigrantsKeep page.migrants) (native, .ok reader') := by
              rw [stateKept_ok, migrantsKeep_iff]
              constructor
              · rintro ⟨hnative, hmigrants⟩
                have hsame : migrants = page.migrants := hfirst hmigrants
                rw [hsame] at hmigrants
                exact ⟨hsame, hnative, hmigrants⟩
              · rintro ⟨hsame, hnative, hmigrants⟩
                rw [hsame]
                exact ⟨hnative, hmigrants⟩
            rw [← hlast]
            dsimp only
            cases Page.applyMigrants migrants reader' with
            | mk migrants' result =>
              cases result with
              | error e' =>
                intro _
                exact page_eq_iff
              | ok reader'' =>
                dsimp only
                by_cases hdigest :
                  Page.keysDigest calculator pageID { page with native, migrants := migrants' } ≠
                    delta.finalDigest
                · rw [if_pos hdigest]
                  intro _
                  exact page_eq_iff
                · rw [if_neg hdigest]
                  by_cases hblock : blockNumber ≥ page.version
                  · rw [if_pos hblock]
                    intro h
                    cases h
                  · rw [if_neg hblock]
                    intro _
                    exact page_eq_iff

/-! ## Sequences of rejected deltas -/

/-- The page after the calls, whatever they return. -/
def Page.afterAll (calculator : DigestCalculator D) (pageID : VarLenFullID) (page : Page Chunk)
    (calls : List (Delta D × Int)) : Page Chunk :=
  calls.foldl (fun page call => (page.applyDelta calculator pageID call.1 call.2).1) page

/-- Each of the calls throws. -/
def Page.Rejects (calculator : DigestCalculator D) (pageID : VarLenFullID) :
    Page Chunk → List (Delta D × Int) → Prop
  | _, [] => True
  | page, call :: calls =>
    (∃ e, (page.applyDelta calculator pageID call.1 call.2).2 = .error e ∧ e.IsThrown) ∧
      Rejects calculator pageID (page.applyDelta calculator pageID call.1 call.2).1 calls

/-- After each rejected delta the page is the original one, and so a delta that is then accepted
leaves it as if it was applied to the original page. -/
structure Page.AllOrNothing (calculator : DigestCalculator D) (pageID : VarLenFullID)
    (page : Page Chunk) (calls : List (Delta D × Int)) :
    Prop where
  unchanged : ∀ done, done <+: calls → page.afterAll calculator pageID done = page
  accepted : ∀ (delta : Delta D) (blockNumber : Int),
    ((page.afterAll calculator pageID calls).applyDelta calculator pageID delta blockNumber).2 =
      .ok () →
      (page.applyDelta calculator pageID delta blockNumber).2 = .ok () ∧
        ((page.afterAll calculator pageID calls).applyDelta calculator pageID delta blockNumber).1 =
          (page.applyDelta calculator pageID delta blockNumber).1

theorem Page.afterAll_of_keeps {page : Page Chunk} :
    ∀ {calls : List (Delta D × Int)}, page.Rejects calculator pageID calls →
    (∀ call ∈ calls, page.Keeps call.1.content) → ∀ done, done <+: calls →
    page.afterAll calculator pageID done = page
  | _, _, _, [], _ => rfl
  | [], _, _, _ :: _, hdone => by
    cases List.prefix_nil.mp hdone
  | call :: calls, hrejects, hkeeps, call' :: done, hdone => by
    obtain ⟨hcall, hprefix⟩ := List.cons_prefix_cons.mp hdone
    obtain ⟨⟨e, herror, -⟩, hrest⟩ := hrejects
    have hsame := (Page.applyDelta_error_iff herror).mpr (hkeeps call List.mem_cons_self)
    rw [hsame] at hrest
    have hnext := Page.afterAll_of_keeps hrest (fun c hc => hkeeps c (List.mem_cons_of_mem _ hc))
      done hprefix
    unfold Page.afterAll at hnext ⊢
    rw [List.foldl_cons, hcall, hsame, hnext]

theorem Page.keeps_of_unchanged {page : Page Chunk} :
    ∀ {calls : List (Delta D × Int)}, page.Rejects calculator pageID calls →
    (∀ done, done <+: calls → page.afterAll calculator pageID done = page) →
    ∀ call ∈ calls, page.Keeps call.1.content
  | [], _, _, call, hcall => by cases hcall
  | first :: calls, hrejects, hunchanged, call, hcall => by
    obtain ⟨⟨e, herror, -⟩, hrejects⟩ := hrejects
    have hsame : (page.applyDelta calculator pageID first.1 first.2).1 = page :=
      hunchanged [first] (List.cons_prefix_cons.mpr ⟨rfl, List.nil_prefix⟩)
    rw [hsame] at hrejects
    cases hcall with
    | head => exact (Page.applyDelta_error_iff herror).mp hsame
    | tail _ hcall =>
      refine Page.keeps_of_unchanged hrejects (fun done hdone => ?_) call hcall
      have hnext := hunchanged (first :: done) (List.cons_prefix_cons.mpr ⟨rfl, hdone⟩)
      unfold Page.afterAll at hnext ⊢
      rwa [List.foldl_cons, hsame] at hnext

/-- **Rejected deltas.** A sequence of deltas that are rejected, by whatever exception, leaves the
page as it was in each of its states exactly if each delta, as far as it is read before it fails,
writes what is in the page. -/
theorem Page.allOrNothing_iff (page : Page Chunk) (calls : List (Delta D × Int))
    (hrejects : page.Rejects calculator pageID calls) :
    page.AllOrNothing calculator pageID calls ↔ ∀ call ∈ calls, page.Keeps call.1.content := by
  constructor
  · intro h
    exact Page.keeps_of_unchanged hrejects h.unchanged
  · intro hkeeps
    have hunchanged := Page.afterAll_of_keeps hrejects hkeeps
    refine ⟨hunchanged, fun delta blockNumber haccepted => ?_⟩
    rw [hunchanged calls (List.prefix_refl _)] at haccepted ⊢
    exact ⟨haccepted, rfl⟩

/-- A delta with a wrong digest, which writes over the byte 7 of the native chunk the byte 7. -/
theorem Page.allOrNothing_iff_digest :
    let calculator : DigestCalculator Nat := ⟨fun _ _ => 0, fun _ => 0⟩
    let page : Page Chunk :=
      { version := 0, native := { content := [7], chunkSize := 1 }, migrants := [] }
    page.AllOrNothing calculator ⟨[0, 0, 0]⟩ [(⟨[0, 0, 1, 1, 7, 0], 1⟩, 1)] := by
  intro calculator page
  have hresult : (page.applyDelta calculator ⟨[0, 0, 0]⟩ ⟨[0, 0, 1, 1, 7, 0], 1⟩ 1).2 =
      .error (.invalidArgument "final digest of page[0x000] is not valid") := by decide +kernel
  have hpage : (page.applyDelta calculator ⟨[0, 0, 0]⟩ ⟨[0, 0, 1, 1, 7, 0], 1⟩ 1).1 = page :=
    Page.ext (by decide +kernel)
      (Chunk.ext (by decide +kernel) (by decide +kernel) (by decide +kernel))
      (List.isEmpty_iff.mp (by decide +kernel))
  have hrejects : page.Rejects calculator ⟨[0, 0, 0]⟩ [(⟨[0, 0, 1, 1, 7, 0], 1⟩, 1)] :=
    ⟨⟨_, hresult, trivial⟩, trivial⟩
  apply (Page.allOrNothing_iff page _ hrejects).mpr
  intro call hmem
  obtain rfl := List.mem_singleton.mp hmem
  exact (Page.applyDelta_error_iff hresult).mp hpage

/-- A delta with a wrong digest is rejected when it has written the byte 9 over the byte 7 of the
native chunk. The delta that is accepted next, also by the retry loop, changes no byte. -/
theorem Page.not_allOrNothing_digest :
    let calculator : DigestCalculator Nat := ⟨fun _ _ => 0, fun _ => 0⟩
    let page : Page Chunk :=
      { version := 0, native := { content := [7], chunkSize := 1 }, migrants := [] }
    let wrong : Delta Nat := ⟨[0, 0, 1, 1, 9, 0], 1⟩
    let right : Delta Nat := ⟨[0, 0, 0], 0⟩
    page.Rejects calculator ⟨[0, 0, 0]⟩ [(wrong, 1)] ∧
      ¬ page.AllOrNothing calculator ⟨[0, 0, 0]⟩ [(wrong, 1)] ∧
      (page.afterAll calculator ⟨[0, 0, 0]⟩ [(wrong, 1), (right, 1)]).native.content = [9] ∧
      (updatePage calculator ⟨[0, 0, 0]⟩ (fun _ i => if i = 0 then wrong else right) 1 2 0
        page).1.native.content = [9] ∧
      (page.applyDelta calculator ⟨[0, 0, 0]⟩ right 1).1.native.content = [7] ∧
      (page.applyDelta calculator ⟨[0, 0, 0]⟩ right 1).2 = .ok () := by
  intro calculator page wrong right
  have hwritten : (page.afterAll calculator ⟨[0, 0, 0]⟩ [(wrong, 1)]).native.content = [9] := by
    decide +kernel
  refine ⟨⟨⟨.invalidArgument "final digest of page[0x000] is not valid", ?_, trivial⟩, trivial⟩, ?_,
    ?_, ?_, ?_, ?_⟩
  · decide +kernel
  · intro h
    have hsame := h.unchanged _ (List.prefix_refl _)
    rw [hsame] at hwritten
    exact absurd hwritten (by decide)
  · decide +kernel
  · decide +kernel
  · decide +kernel
  · decide +kernel

end Asa

end Argennon
