import Argennon.Executor.AppCode
import Argennon.Storage.ModifierView

/- What a function of the library does to the views of a session.

   `InContext` is a session that stands in the context of an application, and `AtChunk` one that has
   a chunk loaded. For each function there is one lemma: when it returns, its value is what the view
   shows, and the session it leaves shows the view as the function changes it. -/
namespace Argennon

/-- The session of an application that sees its chunks, which were built as `m₀`, as `views`. -/
structure InContext (appID : LongID) (heap : Heap) (m₀ : AppMap AccessBlock)
    (views : FullID → ChunkView) (s : Session) : Prop where
  sees : Sees heap m₀ s.heapModifier views
  chunks : s.heapModifier.chunks = (OrderedStaticMap.find m₀.keys appID).toOption
  appID : s.currentCall.appID = appID

/-- And a chunk is loaded. -/
structure AtChunk (appID : LongID) (heap : Heap) (m₀ : AppMap AccessBlock)
    (views : FullID → ChunkView) (c₀ : ChunkInfo AccessBlock)
    (s : Session) : Prop extends InContext appID heap m₀ views s where
  current : ∃ p, s.heapModifier.currentChunk = some p ∧ m₀.get p = some c₀

/-- Only the maps of the modifier are changed. -/
def MapsOnly (s s' : Session) : Prop :=
  s' = { s with
    heapModifier := { s.heapModifier with appsAccessMaps := s'.heapModifier.appsAccessMaps } }

theorem MapsOnly.refl (s : Session) : MapsOnly s s := rfl

theorem MapsOnly.trans {s t u : Session} (h₁ : MapsOnly s t) (h₂ : MapsOnly t u) :
    MapsOnly s u := by
  unfold MapsOnly at h₁ h₂ ⊢
  rw [h₁] at h₂
  exact h₂

theorem MapsOnly.sigManager {s s' : Session} (h : MapsOnly s s') :
    s'.sigManager = s.sigManager := by
  unfold MapsOnly at h
  rw [h]

theorem MapsOnly.currentVersion {s s' : Session} (h : MapsOnly s s') :
    s'.heapModifier.currentVersion = s.heapModifier.currentVersion := by
  unfold MapsOnly at h
  rw [h]

namespace AtChunk
variable {appID : LongID} {heap : Heap} {m₀ : AppMap AccessBlock} {views : FullID → ChunkView}
  {c₀ : ChunkInfo AccessBlock} {s s' : Session}

/-- The loaded chunk is one of the modifier's. -/
theorem mem (h : AtChunk appID heap m₀ views c₀ s) : c₀ ∈ m₀.chunkInfos := by
  obtain ⟨p, -, hc₀⟩ := h.current
  exact AppMap.get_mem hc₀

/-- An operation on the loaded chunk. -/
theorem access (h : AtChunk appID heap m₀ views c₀ s) (hlaid : Laid m₀) {op : ChunkOp}
    {value : Value}
    (hrun : ArgC.heapOp heap (.access op) s = (.ok value, s')) : MapsOnly s s' ∧ ∃ c c',
      Shows s.heapModifier.currentVersion (heap c₀.ptr) c₀ c (views c₀.ptr) ∧
      c.exec (heap c₀.ptr) s.heapModifier.currentVersion op = (.ok value, c') ∧
      ∀ v', Shows s.heapModifier.currentVersion (heap c₀.ptr) c₀ c' v' →
        AtChunk appID heap m₀ (Function.update views c₀.ptr v') c₀ s' := by
  obtain ⟨p, hp, hc₀⟩ := h.current
  have hheapOp : ArgC.heapOp heap (.access op) s = ((s.heapModifier.access heap op).1,
      { s with heapModifier := (s.heapModifier.access heap op).2 }) := rfl
  rw [hheapOp] at hrun
  obtain ⟨hvalue, rfl⟩ := Prod.mk.inj hrun
  obtain ⟨c, c', hshows, hexec, hafter⟩ := h.sees.access hlaid hp hc₀ (Prod.ext hvalue rfl)
  obtain ⟨hversion, hchunks, hcurrent, -⟩ := s.heapModifier.access_frame heap op
  refine ⟨?_, c, c', hshows, hexec, fun v' hv' => ⟨⟨hafter v' hv', hchunks.trans h.chunks, h.appID⟩,
    p, hcurrent.trans hp, hc₀⟩⟩
  unfold MapsOnly
  generalize (s.heapModifier.access heap op).2 = m at hversion hchunks hcurrent
  obtain ⟨version, current, chunks, maps⟩ := m
  obtain rfl : version = _ := hversion
  obtain rfl : current = _ := hcurrent
  obtain rfl : chunks = _ := hchunks
  rfl

/-- An operation that does not change what is shown. -/
theorem same (h : AtChunk appID heap m₀ (Function.update views c₀.ptr (views c₀.ptr)) c₀ s) :
    AtChunk appID heap m₀ views c₀ s := by
  rwa [Function.update_eq_self] at h

theorem load (h : AtChunk appID heap m₀ views c₀ s) (hlaid : Laid m₀) {n offset value : Nat}
    (hrun : ArgC.load heap n offset s = (.ok value, s')) :
    AtChunk appID heap m₀ views c₀ s' ∧ MapsOnly s s' ∧
      ∃ b₀, (offset, b₀) ∈ c₀.accessTable.entries ∧ n ≤ b₀.size ∧
        b₀.accessType.denies .read = false ∧
        value = leNat (readAt ((views c₀.ptr).bytes (heap c₀.ptr) offset b₀.size) 0 n) := by
  obtain ⟨result, t, hop, hresult⟩ := ArgC.bind_eq_ok hrun
  obtain ⟨hmaps, c, c', hshows, hexec, hafter⟩ := h.access hlaid hop
  obtain ⟨hshows', b₀, hb₀, hread, hle, rfl⟩ := hshows.load (hlaid.placed c₀ h.mem) hexec
  obtain ⟨hvalue, rfl⟩ := Prod.mk.inj hresult
  exact ⟨(hafter _ hshows').same, hmaps, b₀, hb₀, by omega, hread, (Except.ok.inj hvalue).symm⟩

theorem isValid (h : AtChunk appID heap m₀ views c₀ s) (hlaid : Laid m₀) {offset size : Nat}
    {valid : Bool}
    (hrun : ArgC.isValid heap offset size s = (.ok valid, s')) :
    AtChunk appID heap m₀ views c₀ s' ∧ MapsOnly s s' ∧
      valid = decide (offset + size ≤ (views c₀.ptr).size) := by
  obtain ⟨result, t, hop, hresult⟩ := ArgC.bind_eq_ok hrun
  obtain ⟨hmaps, c, c', hshows, hexec, hafter⟩ := h.access hlaid hop
  obtain ⟨hshows', rfl, -⟩ := hshows.isValid (hlaid.placed c₀ h.mem) hexec
  obtain ⟨hvalue, rfl⟩ := Prod.mk.inj hresult
  exact ⟨(hafter _ hshows').same, hmaps, (Except.ok.inj hvalue).symm⟩

/-- A value stored at the start of a block, or further inside. -/
theorem storeBytes (h : AtChunk appID heap m₀ views c₀ s) (hlaid : Laid m₀) {offset index : Nat}
    {bytes : List Byte}
    (hrun : discard (ArgC.heapOp heap (.access (.store offset index bytes))) s = (.ok (), s')) :
    MapsOnly s s' ∧
      ∃ b₀, (offset, b₀) ∈ c₀.accessTable.entries ∧ b₀.accessType.denies .write = false ∧
        index + bytes.length ≤ b₀.size ∧
        AtChunk appID heap m₀ (Function.update views c₀.ptr ((views c₀.ptr).write offset
          (writeAt ((views c₀.ptr).bytes (heap c₀.ptr) offset b₀.size) index bytes))) c₀ s' := by
  obtain ⟨result, t, hop, hresult⟩ := ArgC.bind_eq_ok hrun
  obtain ⟨-, rfl⟩ := Prod.mk.inj hresult
  obtain ⟨hmaps, c, c', hshows, hexec, hafter⟩ := h.access hlaid hop
  obtain ⟨b₀, hb₀, hwrite, hle, hshows'⟩ := hshows.store (hlaid.placed c₀ h.mem) hexec
  exact ⟨hmaps, b₀, hb₀, hwrite, hle, hafter _ hshows'⟩

theorem store (h : AtChunk appID heap m₀ views c₀ s) (hlaid : Laid m₀) {n offset value : Nat}
    (hrun : ArgC.store heap n offset value s = (.ok (), s')) : MapsOnly s s' ∧
      ∃ b₀, (offset, b₀) ∈ c₀.accessTable.entries ∧ b₀.accessType.denies .write = false ∧
        n ≤ b₀.size ∧
        AtChunk appID heap m₀ (Function.update views c₀.ptr ((views c₀.ptr).write offset
          (writeAt ((views c₀.ptr).bytes (heap c₀.ptr) offset b₀.size) 0 (leBytes n value))))
        c₀ s' := by
  have hbytes : discard (ArgC.heapOp heap (.access (.store offset 0 (leBytes n value)))) s =
      (.ok (), s') := hrun
  obtain ⟨hmaps, b₀, hb₀, hwrite, hle, hafter⟩ := h.storeBytes hlaid hbytes
  rw [leBytes_length, Nat.zero_add] at hle
  exact ⟨hmaps, b₀, hb₀, hwrite, hle, hafter⟩

theorem addInt (h : AtChunk appID heap m₀ views c₀ s) (hlaid : Laid m₀) {n offset amount : Nat}
    (hrun : discard (ArgC.heapOp heap (.access (.addInt offset n amount))) s = (.ok (), s')) :
    MapsOnly s s' ∧
      ∃ b₀, (offset, b₀) ∈ c₀.accessTable.entries ∧ b₀.accessType.denies .int_add = false ∧
        b₀.size = n ∧
        AtChunk appID heap m₀ (Function.update views c₀.ptr ((views c₀.ptr).write offset
          (leBytes n ((((views c₀.ptr).written offset).map leNat).getD 0 + amount)))) c₀ s' := by
  obtain ⟨result, t, hop, hresult⟩ := ArgC.bind_eq_ok hrun
  obtain ⟨-, rfl⟩ := Prod.mk.inj hresult
  obtain ⟨hmaps, c, c', hshows, hexec, hafter⟩ := h.access hlaid hop
  obtain ⟨b₀, hb₀, hadd, hsize, hshows'⟩ := hshows.addInt (hlaid.placed c₀ h.mem) hexec
  exact ⟨hmaps, b₀, hb₀, hadd, hsize, hafter _ hshows'⟩

theorem updateChunkSize (h : AtChunk appID heap m₀ views c₀ s) (hlaid : Laid m₀) {newSize : Nat}
    (hlt : newSize < 2 ^ 32)
    (hrun : discard (ArgC.heapOp heap (.access (.updateChunkSize newSize))) s = (.ok (), s')) :
    MapsOnly s s' ∧
      AtChunk appID heap m₀ (Function.update views c₀.ptr ((views c₀.ptr).resize newSize))
        c₀ s' := by
  obtain ⟨result, t, hop, hresult⟩ := ArgC.bind_eq_ok hrun
  obtain ⟨-, rfl⟩ := Prod.mk.inj hresult
  obtain ⟨hmaps, c, c', hshows, hexec, hafter⟩ := h.access hlaid hop
  exact ⟨hmaps, hafter _ (hshows.updateChunkSize (hlaid.sizeBound c₀ h.mem) hlt hexec)⟩

end AtChunk

namespace InContext
variable {appID : LongID} {heap : Heap} {m₀ : AppMap AccessBlock} {views : FullID → ChunkView}
  {s s' : Session}

/-- A chunk of the application is loaded. -/
theorem loadChunk (h : InContext appID heap m₀ views s) (hlaid : Laid m₀)
    {accountID localID : LongID}
    (hrun : ArgC.loadChunk heap accountID localID s = (.ok (), s')) : s'.sigManager = s.sigManager ∧
      s'.heapModifier.currentVersion = s.heapModifier.currentVersion ∧
      ∃ c₀, c₀.ptr = toLex (appID, toLex (accountID, localID)) ∧
        AtChunk appID heap m₀ views c₀ s' := by
  obtain ⟨result, t, hop, hresult⟩ := ArgC.bind_eq_ok hrun
  obtain ⟨-, rfl⟩ := Prod.mk.inj hresult
  have hheapOp : ArgC.heapOp heap (.loadChunk accountID localID) s =
    ((s.heapModifier.loadChunk accountID localID).1.map fun _ => .unit,
      { s with heapModifier := (s.heapModifier.loadChunk accountID localID).2 }) := rfl
  rw [hheapOp] at hop
  obtain ⟨hvalue, rfl⟩ := Prod.mk.inj hop
  cases hload : s.heapModifier.loadChunk accountID localID with
  | mk r m =>
    rw [hload] at hvalue
    cases r with
    | error e => cases hvalue
    | ok u =>
      obtain ⟨p, c₀, hc₀, hptr, rfl⟩ :=
        h.sees.loadChunk hlaid (h.chunks.trans (by rw [h.sees.1])) hload
      exact ⟨rfl, rfl, c₀, hptr, ⟨⟨h.sees.congr rfl rfl, h.chunks, h.appID⟩, p, rfl, hc₀⟩⟩

theorem loadAccountChunk (h : InContext appID heap m₀ views s) (hlaid : Laid m₀)
    {accountID localID : LongID}
    (hrun : ArgC.loadAccountChunk heap accountID localID s = (.ok (), s')) :
    s'.sigManager = s.sigManager ∧
      s'.heapModifier.currentVersion = s.heapModifier.currentVersion ∧
      ∃ c₀, c₀.ptr = toLex (appID, toLex (accountID, localID)) ∧
        AtChunk appID heap m₀ views c₀ s' := by
  unfold ArgC.loadAccountChunk at hrun
  split at hrun
  · cases (Prod.mk.inj hrun).1
  · exact h.loadChunk hlaid hrun

/-- The context is loaded once more. -/
theorem reloaded (h : InContext appID heap m₀ views s) :
    InContext appID heap m₀ views (s.loadContext appID) :=
  ⟨h.sees.congr rfl rfl, by rw [h.sees.1]; rfl, h.appID⟩

end InContext
end Argennon
