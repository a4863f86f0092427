import Argennon.Heap.RestrictedModifier
import Mathlib.Data.List.Forall2

/- Two modifiers over maps of one shape, whose chunks are related one by one: every
   operation on the current chunk that keeps the relation of the two chunks and
   returns the same on both keeps the relation of the modifiers. -/
namespace Argennon

section
variable {α β : Type} {R : α → β → Prop} {l₁ : List α} {l₂ : List β}

/-- Related lists have related elements at every index. -/
theorem forall₂_getElem? (h : List.Forall₂ R l₁ l₂) (i : Nat) :
    (l₁[i]? = none ∧ l₂[i]? = none) ∨ ∃ a b, l₁[i]? = some a ∧ l₂[i]? = some b ∧ R a b := by
  induction h generalizing i with
  | nil => simp
  | @cons a b l₁ l₂ hab _ ih =>
    cases i with
    | zero => exact .inr ⟨a, b, rfl, rfl, hab⟩
    | succ i => simpa using ih i

theorem forall₂_set (h : List.Forall₂ R l₁ l₂) (i : Nat) {a : α} {b : β} (hab : R a b) :
    List.Forall₂ R (l₁.set i a) (l₂.set i b) := by
  induction h generalizing i with
  | nil => simp
  | cons h _ ih =>
    cases i with
    | zero => exact .cons hab (by assumption)
    | succ i => exact .cons h (ih i)

theorem forall₂_comp {γ : Type} {S : β → γ → Prop} {l₃ : List γ} (h : List.Forall₂ R l₁ l₂)
    (h' : List.Forall₂ S l₂ l₃) :
    List.Forall₂ (fun a c => ∃ b, R a b ∧ S b c) l₁ l₃ := by
  induction h generalizing l₃ with
  | nil =>
    cases h'
    exact .nil
  | @cons a b l₁ l₂ hab _ ih =>
    obtain ⟨c, l, hbc, hl, rfl⟩ := List.forall₂_cons_left_iff.mp h'
    exact .cons ⟨b, hab, hbc⟩ (ih hl)

theorem forall₂_mem_right (h : List.Forall₂ R l₁ l₂) {b : β} (hb : b ∈ l₂) : ∃ a ∈ l₁, R a b := by
  induction h with
  | nil => cases hb
  | @cons a b' l₁ l₂ hab _ ih =>
    rcases List.mem_cons.mp hb with rfl | hb
    · exact ⟨a, List.mem_cons_self, hab⟩
    · obtain ⟨a', ha', hR⟩ := ih hb
      exact ⟨a', List.mem_cons_of_mem _ ha', hR⟩

theorem forall₂_mem_left (h : List.Forall₂ R l₁ l₂) {a : α} (ha : a ∈ l₁) : ∃ b ∈ l₂, R a b :=
  forall₂_mem_right h.flip ha

end

theorem ChunkInfo.getAccessBlock_ok {B : Type} {c : ChunkInfo B} {offset k : Nat} {b : B}
    (h : c.getAccessBlock offset = .ok (k, b)) : c.accessTable.values[k]? = some b := by
  unfold ChunkInfo.getAccessBlock at h
  split at h
  · rename_i i _
    cases hb : vecGet c.accessTable.values i with
    | error e =>
      rw [hb] at h
      cases h
    | ok b' =>
      rw [hb] at h
      obtain ⟨rfl, rfl⟩ := Prod.mk.inj (Except.ok.inj h)
      exact vecGet_ok.mp hb
  · cases h
  · cases h

theorem ChunkInfo.getAccessBlock_key {B : Type} {c : ChunkInfo B} {offset k : Nat} {b : B}
    (h : c.getAccessBlock offset = .ok (k, b)) : c.accessTable.keys[k]? = some offset := by
  unfold ChunkInfo.getAccessBlock at h
  split at h
  · rename_i i hi
    cases hb : vecGet c.accessTable.values i with
    | error e =>
      rw [hb] at h
      cases h
    | ok b' =>
      rw [hb] at h
      obtain ⟨rfl, -⟩ := Prod.mk.inj (Except.ok.inj h)
      exact OrderedStaticMap.find_ok hi
  · cases h
  · cases h

/-- The block that is found is an entry of the table. -/
theorem ChunkInfo.getAccessBlock_mem {B : Type} {c : ChunkInfo B} {offset k : Nat} {b : B}
    (h : c.getAccessBlock offset = .ok (k, b)) : (offset, b) ∈ c.accessTable.entries :=
  List.mem_iff_getElem?.mpr ⟨k,
    List.getElem?_zip_eq_some.mpr ⟨getAccessBlock_key h, getAccessBlock_ok h⟩⟩

namespace AppMap
variable {B₁ B₂ : Type} {R : ChunkInfo B₁ → ChunkInfo B₂ → Prop} {m₁ : AppMap B₁} {m₂ : AppMap B₂}

/-- Maps of the same keys whose chunks are related one by one. -/
def Lift (R : ChunkInfo B₁ → ChunkInfo B₂ → Prop) (m₁ : AppMap B₁) (m₂ : AppMap B₂) : Prop :=
  m₁.keys = m₂.keys ∧
    List.Forall₂ (fun a b => a.keys = b.keys ∧ List.Forall₂ R a.values b.values) m₁.values m₂.values

theorem Lift.get (h : Lift R m₁ m₂) (p : Nat × Nat) :
    (m₁.get p = none ∧ m₂.get p = none) ∨ ∃ c₁ c₂, m₁.get p = some c₁ ∧ m₂.get p = some c₂ ∧
    R c₁ c₂ := by
  unfold AppMap.get
  rcases forall₂_getElem? h.2 p.1 with ⟨h1, h2⟩ | ⟨a, b, h1, h2, -, hab⟩
  · simp [h1, h2]
  · simpa [h1, h2] using forall₂_getElem? hab p.2

theorem Lift.set (h : Lift R m₁ m₂) (p : Nat × Nat) {c₁ : ChunkInfo B₁} {c₂ : ChunkInfo B₂}
    (hc : R c₁ c₂) :
    Lift R (m₁.set p c₁) (m₂.set p c₂) := by
  unfold AppMap.set
  rcases forall₂_getElem? h.2 p.1 with ⟨h1, h2⟩ | ⟨a, b, h1, h2, hk, hab⟩
  · simpa [h1, h2] using h
  · simp only [h1, h2]
    exact ⟨h.1, forall₂_set h.2 p.1 ⟨hk, forall₂_set hab p.2 hc⟩⟩

theorem Lift.chunkInfos (h : Lift R m₁ m₂) : List.Forall₂ R m₁.chunkInfos m₂.chunkInfos := by
  unfold AppMap.chunkInfos
  exact List.rel_flatMap (R := fun a b => a.keys = b.keys ∧ List.Forall₂ R a.values b.values) h.2
    fun _ _ hab => hab.2

theorem Lift.mono {R' : ChunkInfo B₁ → ChunkInfo B₂ → Prop} (h : Lift R m₁ m₂)
    (hR : ∀ c₁ c₂, R c₁ c₂ → R' c₁ c₂) : Lift R' m₁ m₂ :=
  ⟨h.1, h.2.imp fun _ _ hab => ⟨hab.1, hab.2.imp fun _ _ => hR _ _⟩⟩

/-- Putting a value back changes nothing. -/
theorem setValue_get {K V : Type} {m : OrderedStaticMap K V} {i : Nat} {v : V}
    (h : m.values[i]? = some v) :
    m.setValue i v = m := by
  obtain ⟨hlt, rfl⟩ := List.getElem?_eq_some_iff.mp h
  obtain ⟨keys, values, size_eq⟩ := m
  simp only [OrderedStaticMap.setValue, List.set_getElem_self]

theorem set_get {B : Type} {m : AppMap B} {p : Nat × Nat} {c : ChunkInfo B} (h : m.get p = some c) :
    m.set p c = m := by
  obtain ⟨chunkMap, h1, h2⟩ := Option.bind_eq_some_iff.mp h
  have hset : chunkMap.setValue p.2 c = chunkMap := setValue_get h2
  simp only [AppMap.set, h1, hset]
  exact setValue_get h1

/-- A change of one chunk on the right only. -/
theorem Lift.set_right (h : Lift R m₁ m₂) {p : Nat × Nat} {c₁ : ChunkInfo B₁} {c₂ : ChunkInfo B₂}
    (hget : m₁.get p = some c₁) (hc : R c₁ c₂) : Lift R m₁ (m₂.set p c₂) := by
  have := h.set p hc
  rwa [set_get hget] at this

theorem get_set_self {B : Type} {m : AppMap B} {p : Nat × Nat} {c c' : ChunkInfo B}
    (h : m.get p = some c) :
    (m.set p c').get p = some c' := by
  obtain ⟨chunkMap, h1, h2⟩ := Option.bind_eq_some_iff.mp h
  obtain ⟨hlt1, -⟩ := List.getElem?_eq_some_iff.mp h1
  obtain ⟨hlt2, -⟩ := List.getElem?_eq_some_iff.mp h2
  unfold AppMap.get AppMap.set
  simp only [h1, OrderedStaticMap.setValue, List.getElem?_set_self hlt1]
  exact List.getElem?_set_self hlt2

theorem get_set_of_ne {B : Type} (m : AppMap B) {p q : Nat × Nat} (c : ChunkInfo B) (h : q ≠ p) :
    (m.set p c).get q = m.get q := by
  unfold AppMap.set
  cases h1 : m.values[p.1]? with
  | none => rfl
  | some chunkMap =>
    unfold AppMap.get
    simp only [OrderedStaticMap.setValue]
    by_cases hfirst : p.1 = q.1
    · obtain ⟨hlt1, -⟩ := List.getElem?_eq_some_iff.mp h1
      have hsecond : p.2 ≠ q.2 := fun hsecond => h (Prod.ext hfirst.symm hsecond.symm)
      rw [← hfirst, List.getElem?_set_self hlt1, h1]
      exact List.getElem?_set_ne hsecond
    · rw [List.getElem?_set_ne hfirst]

theorem get_mem {B : Type} {m : AppMap B} {p : Nat × Nat} {c : ChunkInfo B} (h : m.get p = some c) :
    c ∈ m.chunkInfos := by
  obtain ⟨chunkMap, h1, h2⟩ := Option.bind_eq_some_iff.mp h
  exact List.mem_flatMap.mpr ⟨chunkMap, List.mem_of_getElem? h1, List.mem_of_getElem? h2⟩

end AppMap

namespace RestrictedModifier

/-- What every operation on a chunk keeps, every run keeps, chunk by chunk. -/
theorem run_lift {B₀ B : Type} [HeapBlock B] {R : ChunkInfo B₀ → ChunkInfo B → Prop}
    {m₀ : AppMap B₀} {heap : Heap}
    (hstep : ∀ c₀ c version op, R c₀ c → R c₀ (c.exec (heap c.ptr) version op).2) :
    ∀ (ops : List Op) (m : RestrictedModifier B), AppMap.Lift R m₀ m.appsAccessMaps →
      AppMap.Lift R m₀ (m.run heap ops).2.appsAccessMaps
  | [], _, h => h
  | op :: ops, m, h => by
    refine run_lift hstep ops (m.exec heap op).2 ?_
    cases op with
    | loadContext appID => exact h
    | loadChunk accountID localID =>
      have : (m.loadChunk accountID localID).2.appsAccessMaps = m.appsAccessMaps := by
        unfold loadChunk
        split
        · rfl
        split <;> rfl
      simpa only [exec, this] using h
    | saveVersion =>
      have : m.saveVersion.2.appsAccessMaps = m.appsAccessMaps := by
        unfold saveVersion
        split <;> rfl
      simpa only [exec, this] using h
    | restoreVersion version =>
      have : (m.restoreVersion version).2.appsAccessMaps = m.appsAccessMaps := by
        unfold restoreVersion
        split <;> rfl
      simpa only [exec, this] using h
    -- the only operation that changes a chunk
    | access op =>
      simp only [exec, access]
      cases m.currentChunk with
      | none => exact h
      | some p =>
        rcases h.get p with ⟨-, h2⟩ | ⟨c₀, c, h1, h2, hc⟩
        · simpa only [h2] using h
        · simp only [h2]
          exact h.set_right h1 (hstep c₀ c _ op hc)

variable {B₁ B₂ : Type} [HeapBlock B₁] [HeapBlock B₂] {R : ChunkInfo B₁ → ChunkInfo B₂ → Prop}
  {m₁ : RestrictedModifier B₁} {m₂ : RestrictedModifier B₂}

/-- Modifiers that stand at the same place of related maps. -/
structure Related (R : ChunkInfo B₁ → ChunkInfo B₂ → Prop) (m₁ : RestrictedModifier B₁)
    (m₂ : RestrictedModifier B₂) : Prop where
  currentVersion : m₁.currentVersion = m₂.currentVersion
  currentChunk : m₁.currentChunk = m₂.currentChunk
  chunks : m₁.chunks = m₂.chunks
  maps : AppMap.Lift R m₁.appsAccessMaps m₂.appsAccessMaps

omit [HeapBlock B₁] [HeapBlock B₂] in
theorem Related.loadContext (h : Related R m₁ m₂) (appID : LongID) :
    Related R (m₁.loadContext appID) (m₂.loadContext appID) := by
  refine ⟨h.currentVersion, rfl, ?_, h.maps⟩
  simp only [RestrictedModifier.loadContext, h.maps.1]

omit [HeapBlock B₁] [HeapBlock B₂] in
theorem Related.loadChunk (h : Related R m₁ m₂) (accountID localID : LongID) :
    (m₁.loadChunk accountID localID).1 = (m₂.loadChunk accountID localID).1 ∧
      Related R (m₁.loadChunk accountID localID).2 (m₂.loadChunk accountID localID).2 := by
  unfold RestrictedModifier.loadChunk
  rw [h.chunks]
  cases m₂.chunks with
  | none => exact ⟨rfl, h⟩
  | some i =>
    rcases forall₂_getElem? h.maps.2 i with ⟨h1, h2⟩ | ⟨a, b, h1, h2, hk, -⟩
    · simp [h1, h2, h]
    · simp only [Option.bind_some, h1, h2, Option.map_some, hk]
      split
      · exact ⟨rfl, h.currentVersion, rfl, rfl, h.maps⟩
      · exact ⟨rfl, h⟩
      · exact ⟨rfl, h⟩

/-- An operation on the current chunk. -/
theorem Related.access {heap₁ heap₂ : Heap} (h : Related R m₁ m₂) (op : ChunkOp)
    (hstep : ∀ c₁ c₂, R c₁ c₂ →
      (c₁.exec (heap₁ c₁.ptr) m₁.currentVersion op).1 =
      (c₂.exec (heap₂ c₂.ptr) m₂.currentVersion op).1 ∧
        R (c₁.exec (heap₁ c₁.ptr) m₁.currentVersion op).2
          (c₂.exec (heap₂ c₂.ptr) m₂.currentVersion op).2) :
    (m₁.access heap₁ op).1 = (m₂.access heap₂ op).1 ∧
    Related R (m₁.access heap₁ op).2 (m₂.access heap₂ op).2 := by
  unfold RestrictedModifier.access
  rw [h.currentChunk]
  cases m₂.currentChunk with
  | none => exact ⟨rfl, h⟩
  | some p =>
    rcases h.maps.get p with ⟨h1, h2⟩ | ⟨c₁, c₂, h1, h2, hc⟩
    · simp only [h1, h2]
      exact ⟨trivial, h⟩
    · simp only [h1, h2]
      obtain ⟨hr, hR⟩ := hstep c₁ c₂ hc
      exact ⟨hr, h.currentVersion, rfl, h.chunks, h.maps.set p hR⟩

/-- The write-back of related chunks that leave the same memory. -/
theorem writeChunks_related {version : Nat} {l₁ : List (ChunkInfo B₁)} {l₂ : List (ChunkInfo B₂)}
    {heap : Heap}
    (h : List.Forall₂ (fun c₁ c₂ => c₁.ptr = c₂.ptr ∧
      ∀ chunk, c₁.writeToHeap version chunk = c₂.writeToHeap version chunk) l₁ l₂) :
    writeChunks version l₁ heap = writeChunks version l₂ heap := by
  induction h generalizing heap with
  | nil => rfl
  | @cons c₁ c₂ l₁ l₂ hc _ ih =>
    rw [writeChunks, writeChunks, hc.1, hc.2]
    cases c₂.writeToHeap version (heap c₂.ptr) with
    | error e => rfl
    | ok chunk => exact ih

end RestrictedModifier
end Argennon
