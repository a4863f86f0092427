import Argennon.Executor.RequestProgram
import Argennon.Lib.Interleaving
import Argennon.Validator.IndependentBlocks

/- Requests that take turns on one heap.

   A request stands while what it has seen of its chunks still holds (`Stands`). A turn of another
   request whose blocks do not collide with its own changes nothing that it sees
   (`StateReady.frame`), and the turns of two such requests change places (`next_frame`,
   `effect_comm`). So the requests are processes that commute (`requests_commuting`). -/
namespace Argennon

open VersionStack CommutingActions RequestScheduler Interleaving ChunkInfo

/-! ## One operation -/

namespace RestrictedModifier

/-- An operation changes the maps at most at the current chunk. -/
theorem exec_maps (heap : Heap) (m : RestrictedModifier AccessBlock) (op : Op) :
    (m.exec heap op).2.appsAccessMaps = m.appsAccessMaps ∨ ∃ chunkOp p c, op = .access chunkOp ∧
    m.currentInfo = some c ∧
      m.appsAccessMaps.get p = some c ∧
      (m.exec heap op).2.appsAccessMaps =
      m.appsAccessMaps.set p (c.exec (heap c.ptr) m.currentVersion chunkOp).2 := by
  cases op with
  | loadContext appID => exact .inl rfl
  | loadChunk accountID localID =>
    left
    simp only [exec, loadChunk]
    split
    · rfl
    · split <;> rfl
  | saveVersion =>
    left
    simp only [exec, saveVersion]
    split <;> rfl
  | restoreVersion version =>
    left
    simp only [exec, restoreVersion]
    split <;> rfl
  | access chunkOp =>
    cases hcurrent : m.currentChunk with
    | none =>
      left
      simp only [exec, access, hcurrent]
    | some p =>
      cases hget : m.appsAccessMaps.get p with
      | none =>
        left
        simp only [exec, access, hcurrent, hget]
      | some c =>
        refine .inr ⟨chunkOp, p, c, rfl, ?_, hget, ?_⟩
        · rw [currentInfo, hcurrent]
          exact hget
        · simp only [exec, access, hcurrent, hget]

/-- The operation asks nothing that its access map does not answer. -/
def OpDiscreet (m : RestrictedModifier AccessBlock) : Op → Prop
  | .access op => ∀ c, m.currentInfo = some c → op.Discreet c.resizing
  | _ => True

end RestrictedModifier

open RestrictedModifier

/-- No operation of the program does, whatever the heap holds. -/
def Program.Discreet : Program → RestrictedModifier AccessBlock → Prop
  | .ending _, _ => True
  | .step op next, m => OpDiscreet m op ∧
    ∀ heap : Heap, (next (m.exec heap op).1).Discreet (m.exec heap op).2

/-! ## What a request has seen -/

section
variable (index : ChunkIndex) (heap₀ : Heap) (Resized : FullID → Prop)

/-- A request whose modifier was built for these entries. -/
structure Prepared (entries : List (FullID × List (Int × AccessBlockInfo)))
    (m₀ : RestrictedModifier AccessBlock) : Prop where
  declared : List.Forall₂ (Declared index heap₀ Resized) entries m₀.appsAccessMaps.chunkInfos
  nodup : (entries.map Prod.fst).Nodup

/-- What the request has recorded of the chunk of the entry still holds. -/
def StandsFor (heap : Heap) (e : FullID × List (Int × AccessBlockInfo))
    (c : ChunkInfo AccessBlock) : Prop :=
  ∃ c₀, Declared index heap₀ Resized e c₀ ∧ Current e.2 (heap e.1) c₀ c

/-- The same, of the chunk that was built as `c₀`. -/
def Stands (entries : List (FullID × List (Int × AccessBlockInfo))) (heap : Heap)
    (c₀ c : ChunkInfo AccessBlock) : Prop :=
  ∃ e ∈ entries, Declared index heap₀ Resized e c₀ ∧ Current e.2 (heap e.1) c₀ c

/-- The information of a chunk in two runs, over heaps that the entry does not tell apart. -/
def Mates (entries : List (FullID × List (Int × AccessBlockInfo))) (heap heap' : Heap)
    (c c' : ChunkInfo AccessBlock) : Prop :=
  ∃ e ∈ entries, ∃ c₀, Declared index heap₀ Resized e c₀ ∧ Current e.2 (heap e.1) c₀ c ∧
    Current e.2 (heap' e.1) c₀ c' ∧
    SameInfo c c' ∧ ChunksAgree AsksBytes e.2 (heap e.1) (heap' e.1)

/-- The request is where its modifier and the heap let it be. -/
def StateReady (entries : List (FullID × List (Int × AccessBlockInfo)))
    (m₀ : RestrictedModifier AccessBlock) (heap : Heap) :
    RequestState → Prop
  | .running program m =>
    AppMap.Lift (Stands index heap₀ Resized entries heap) m₀.appsAccessMaps m.appsAccessMaps ∧
      program.Discreet m
  | .writing _ _ chunks =>
    ∃ todo, todo <:+ entries ∧ List.Forall₂ (StandsFor index heap₀ Resized heap) todo chunks
  | .ended _ => True

end

/-- The same place of a request, but for the sizes that are recorded. -/
inductive RequestState.Alike : RequestState → RequestState → Prop
  | running {program : Program} {m m' : RestrictedModifier AccessBlock}
    (h : Related SameInfo m m') :
    RequestState.Alike (.running program m) (.running program m')
  | writing {statusCode : Int} {version : Nat} {chunks chunks' : List (ChunkInfo AccessBlock)}
    (h : List.Forall₂ SameInfo chunks chunks') :
    RequestState.Alike (.writing statusCode version chunks) (.writing statusCode version chunks')
  | ended {result : Except Exn Int} : RequestState.Alike (.ended result) (.ended result)

theorem AppMap.Lift.of_mem {R : ChunkInfo AccessBlock → ChunkInfo AccessBlock → Prop}
    {m : AppMap AccessBlock}
    (h : ∀ c ∈ m.chunkInfos, R c c) : AppMap.Lift R m m :=
  ⟨rfl, List.forall₂_same.mpr fun chunkMap hmap =>
    ⟨rfl, List.forall₂_same.mpr fun c hc => h c (List.mem_flatMap.mpr ⟨chunkMap, hmap, hc⟩)⟩⟩

theorem RestrictedModifier.Related.same (m : RestrictedModifier AccessBlock) :
    Related SameInfo m m :=
  ⟨rfl, rfl, rfl, AppMap.Lift.of_mem fun c _ => SameInfo.refl c⟩

theorem RequestState.Alike.refl : ∀ r : RequestState, r.Alike r
  | .running _ m => .running (Related.same m)
  | .writing _ _ _ => .writing (List.forall₂_same.mpr fun c _ => SameInfo.refl c)
  | .ended _ => .ended

theorem RequestState.Alike.eq_ended {result : Except Exn Int} {r : RequestState}
    (h : (RequestState.ended result).Alike r) :
    r = .ended result := by
  cases h
  rfl

theorem AppMap.Lift.symm {R : ChunkInfo AccessBlock → ChunkInfo AccessBlock → Prop}
    (hR : ∀ {c c'}, R c c' → R c' c)
    {m m' : AppMap AccessBlock} (h : AppMap.Lift R m m') : AppMap.Lift R m' m :=
  ⟨h.1.symm, h.2.flip.imp fun _ _ hab => ⟨hab.1.symm, hab.2.flip.imp fun _ _ => hR⟩⟩

theorem RequestState.Alike.symm {r r' : RequestState} (h : r.Alike r') : r'.Alike r := by
  cases h with
  | running h =>
    exact .running ⟨h.currentVersion.symm, h.currentChunk.symm, h.chunks.symm,
      AppMap.Lift.symm (R := SameInfo) (fun h => h.symm) h.maps⟩
  | writing h => exact .writing (h.flip.imp fun _ _ => SameInfo.symm)
  | ended => exact .ended

theorem AppMap.Lift.trans {R : ChunkInfo AccessBlock → ChunkInfo AccessBlock → Prop}
    (hR : ∀ {c c' c''}, R c c' → R c' c'' → R c c'')
    {m m' m'' : AppMap AccessBlock} (h : AppMap.Lift R m m') (h' : AppMap.Lift R m' m'') :
    AppMap.Lift R m m'' :=
  ⟨h.1.trans h'.1, (forall₂_comp h.2 h'.2).imp fun _ _ ⟨_, hab, hbc⟩ =>
    ⟨hab.1.trans hbc.1, (forall₂_comp hab.2 hbc.2).imp fun _ _ ⟨_, h1, h2⟩ => hR h1 h2⟩⟩

theorem RequestState.Alike.trans {r r' r'' : RequestState} (h : r.Alike r') (h' : r'.Alike r'') :
    r.Alike r'' := by
  cases h with
  | running h =>
    cases h' with
    | running h' =>
      exact .running ⟨h.currentVersion.trans h'.currentVersion,
        h.currentChunk.trans h'.currentChunk, h.chunks.trans h'.chunks,
        AppMap.Lift.trans (R := SameInfo) (fun h h' => h.trans h') h.maps h'.maps⟩
  | writing h =>
    cases h' with
    | writing h' => exact .writing ((forall₂_comp h h').imp fun _ _ ⟨_, h1, h2⟩ => h1.trans h2)
  | ended => exact h'

section
variable {index : ChunkIndex} {heap₀ : Heap} {Resized : FullID → Prop}
  {entries entries' : List (FullID × List (Int × AccessBlockInfo))}
  {m₀ m₀' m m' : RestrictedModifier AccessBlock} {heap heap' : Heap}

theorem Prepared.eq_of_id (hp : Prepared index heap₀ Resized entries m₀)
    {e e' : FullID × List (Int × AccessBlockInfo)}
    (he : e ∈ entries) (he' : e' ∈ entries) (hid : e.1 = e'.1) : e = e' :=
  List.inj_on_of_nodup_map hp.nodup he he' hid

theorem Declared.ptr {e : FullID × List (Int × AccessBlockInfo)} {c₀ : ChunkInfo AccessBlock}
    (h : Declared index heap₀ Resized e c₀) :
    c₀.ptr = e.1 := h.built.ptr

/-- A request that has not started. -/
theorem Prepared.start (hp : Prepared index heap₀ Resized entries m₀) (heap : Heap) :
    AppMap.Lift (Stands index heap₀ Resized entries heap) m₀.appsAccessMaps m₀.appsAccessMaps := by
  refine AppMap.Lift.of_mem fun c hc => ?_
  obtain ⟨e, he, hd⟩ := forall₂_mem_right hp.declared hc
  exact ⟨e, he, hd, hd.built.current (heap e.1)⟩

/-- What an operation leaves of a chunk. -/
theorem Stands.exec {c₀ c : ChunkInfo AccessBlock}
    (h : Stands index heap₀ Resized entries heap c₀ c) (version : Nat) {op : ChunkOp}
    (hop : op.Discreet c.resizing) :
    Stands index heap₀ Resized entries heap c₀ (c.exec (heap c.ptr) version op).2 := by
  obtain ⟨e, he, hd, hc⟩ := h
  have hptr : c.ptr = e.1 := (hc.kept.ptr : c.ptr = c₀.ptr).trans hd.ptr
  have hresizing : c.resizing = c₀.resizing := hc.kept.resizing
  rw [hptr]
  exact ⟨e, he, hd, (hc.exec hd.built version (hresizing ▸ hop)).2.2⟩

theorem exec_stands {m : RestrictedModifier AccessBlock}
    (h : AppMap.Lift (Stands index heap₀ Resized entries heap) m₀.appsAccessMaps m.appsAccessMaps)
    {op : Op} (hop : OpDiscreet m op) :
    AppMap.Lift (Stands index heap₀ Resized entries heap) m₀.appsAccessMaps
      (m.exec heap op).2.appsAccessMaps := by
  obtain hsame | ⟨chunkOp, p, c, rfl, hinfo, hget, hset⟩ := m.exec_maps heap op
  · rwa [hsame]
  · rw [hset]
    obtain ⟨-, hnone⟩ | ⟨c₀, c', hget₀, hget', hstands⟩ := h.get p
    · rw [hnone] at hget
      cases hget
    · obtain rfl := Option.some.inj (hget.symm.trans hget')
      exact h.set_right hget₀ (hstands.exec m.currentVersion (hop c hinfo))

/-- The chunks that are written back, each with its entry. -/
theorem Prepared.standsFor (hp : Prepared index heap₀ Resized entries m₀)
    {m : RestrictedModifier AccessBlock}
    (h : AppMap.Lift (Stands index heap₀ Resized entries heap) m₀.appsAccessMaps m.appsAccessMaps) :
    List.Forall₂ (StandsFor index heap₀ Resized heap) entries m.appsAccessMaps.chunkInfos := by
  have hmem : List.Forall₂ (fun e c₀ => e ∈ entries ∧ Declared index heap₀ Resized e c₀) entries
      m₀.appsAccessMaps.chunkInfos :=
    List.forall₂_iff_get.mpr ⟨hp.declared.length_eq,
      fun i h₁ h₂ => ⟨List.get_mem entries ⟨i, h₁⟩, hp.declared.get h₁ h₂⟩⟩
  refine (forall₂_comp hmem h.chunkInfos).imp ?_
  rintro e c ⟨c₀, ⟨he, hd⟩, e', he', hd', hc⟩
  obtain rfl := hp.eq_of_id he he' (hd.ptr.symm.trans hd'.ptr)
  exact ⟨c₀, hd, hc⟩

/-! ## Two runs of one request -/

/-- The chunks of two modifiers that are alike, over heaps that the entries do not tell apart. -/
theorem Prepared.mates (hp : Prepared index heap₀ Resized entries m₀)
    (h : AppMap.Lift (Stands index heap₀ Resized entries heap) m₀.appsAccessMaps m.appsAccessMaps)
    (h' : AppMap.Lift (Stands index heap₀ Resized entries heap') m₀.appsAccessMaps
      m'.appsAccessMaps) (hm : Related SameInfo m m')
    (ha : ∀ e ∈ entries, ChunksAgree AsksBytes e.2 (heap e.1) (heap' e.1)) :
    Related (Mates index heap₀ Resized entries heap heap') m m' := by
  refine ⟨hm.currentVersion, hm.currentChunk, hm.chunks, hm.maps.of_get fun p c c' hc hc' => ?_⟩
  obtain ⟨-, hnone⟩ | ⟨c₀, c₁, hget₀, hget, e, he, hd, hcurrent⟩ := h.get p
  · rw [hnone] at hc
    cases hc
  obtain ⟨-, hnone⟩ | ⟨c₀', c₁', hget₀', hget', e', he', hd', hcurrent'⟩ := h'.get p
  · rw [hnone] at hc'
    cases hc'
  obtain ⟨hnone, -⟩ | ⟨c₂, c₂', hget₂, hget₂', hsame⟩ := hm.maps.get p
  · rw [hnone] at hc
    cases hc
  obtain rfl := Option.some.inj (hget.symm.trans hc)
  obtain rfl := Option.some.inj (hget'.symm.trans hc')
  obtain rfl := Option.some.inj (hget₂.symm.trans hc)
  obtain rfl := Option.some.inj (hget₂'.symm.trans hc')
  obtain rfl := Option.some.inj (hget₀.symm.trans hget₀')
  obtain rfl := hp.eq_of_id he he' (hd.ptr.symm.trans hd'.ptr)
  exact ⟨e, he, c₀, hd, hcurrent, hcurrent', hsame, ha e he⟩

theorem Mates.exec {c c' : ChunkInfo AccessBlock}
    (h : Mates index heap₀ Resized entries heap heap' c c') (version : Nat) {op : ChunkOp}
    (hop : op.Discreet c.resizing) :
    (c.exec (heap c.ptr) version op).1 = (c'.exec (heap' c'.ptr) version op).1 ∧
      SameInfo (c.exec (heap c.ptr) version op).2 (c'.exec (heap' c'.ptr) version op).2 := by
  obtain ⟨e, -, c₀, hd, hc, hc', hsame, ha⟩ := h
  have hptr : c.ptr = e.1 := (hc.kept.ptr : c.ptr = c₀.ptr).trans hd.ptr
  have hresizing : c.resizing = c₀.resizing := hc.kept.resizing
  rw [← hsame.ptr, hptr]
  exact hc.exec_agree hd.built hc' hsame ha version (hresizing ▸ hop)

/-- An operation returns the same in both runs, and leaves modifiers that are alike. -/
theorem exec_mates (h : Related (Mates index heap₀ Resized entries heap heap') m m') {op : Op}
    (hop : OpDiscreet m op) :
    (m.exec heap op).1 = (m'.exec heap' op).1 ∧
    Related SameInfo (m.exec heap op).2 (m'.exec heap' op).2 := by
  have hsame : Related SameInfo m m' :=
    ⟨h.currentVersion, h.currentChunk, h.chunks, h.maps.mono fun c c' hmates => by
    obtain ⟨e, -, c₀, -, -, -, hsame, -⟩ := hmates
    exact hsame⟩
  cases op with
  | loadContext appID => exact ⟨rfl, hsame.loadContext appID⟩
  | loadChunk accountID localID =>
    obtain ⟨hr, h'⟩ := hsame.loadChunk accountID localID
    exact ⟨congrArg (Except.map _) hr, h'⟩
  | saveVersion =>
    simp only [RestrictedModifier.exec, saveVersion, h.currentVersion]
    split
    · exact ⟨rfl, hsame⟩
    · exact ⟨rfl, rfl, h.currentChunk, h.chunks, hsame.maps⟩
  | restoreVersion version =>
    simp only [RestrictedModifier.exec, restoreVersion, h.currentVersion]
    split
    · exact ⟨rfl, rfl, h.currentChunk, h.chunks, hsame.maps⟩
    · exact ⟨rfl, hsame⟩
  | access op =>
    simp only [OpDiscreet, currentInfo] at hop
    simp only [RestrictedModifier.exec, RestrictedModifier.access]
    rw [← h.currentChunk, ← h.currentVersion]
    cases hcurrent : m.currentChunk with
    | none => exact ⟨rfl, hsame⟩
    | some p =>
      rw [hcurrent] at hop
      obtain ⟨h1, h2⟩ | ⟨c, c', h1, h2, hmates⟩ := h.maps.get p
      · simp only [h1, h2]
        exact ⟨trivial, hsame⟩
      · simp only [h1, h2]
        obtain ⟨hr, hsame'⟩ := hmates.exec m.currentVersion (hop c h1)
        exact ⟨hr, rfl, rfl, h.chunks, hsame.maps.set p hsame'⟩

/-- The write-back of a chunk does not depend on what is recorded. -/
theorem writeToHeap_alike {c c' : ChunkInfo AccessBlock} {e : FullID × List (Int × AccessBlockInfo)}
    (h : StandsFor index heap₀ Resized heap e c)
    (h' : StandsFor index heap₀ Resized heap e c') (hsame : SameInfo c c') (version : Nat) :
    c.writeToHeap version (heap c.ptr) = c'.writeToHeap version (heap c'.ptr) := by
  obtain ⟨c₀, hd, hc⟩ := h
  obtain ⟨c₀', hd', hc'⟩ := h'
  have hptr : c.ptr = e.1 := (hc.kept.ptr : c.ptr = c₀.ptr).trans hd.ptr
  have hptr' : c'.ptr = e.1 := (hc'.kept.ptr : c'.ptr = c₀'.ptr).trans hd'.ptr
  rw [hptr, hptr', hc.writeToHeap_recorded hd.built hd.placed,
    hc'.writeToHeap_recorded hd'.built hd'.placed, hsame.recorded]

theorem todo_eq {todo todo' : List (FullID × List (Int × AccessBlockInfo))}
    {chunks chunks' : List (ChunkInfo AccessBlock)} (hsuffix : todo <:+ entries)
    (hsuffix' : todo' <:+ entries)
    (h : List.Forall₂ (StandsFor index heap₀ Resized heap) todo chunks)
    (h' : List.Forall₂ (StandsFor index heap₀ Resized heap) todo' chunks')
    (hsame : List.Forall₂ SameInfo chunks chunks') : todo = todo' := by
  have hlength : todo.length = todo'.length :=
    h.length_eq.trans (hsame.length_eq.trans h'.length_eq.symm)
  obtain ⟨before, hbefore⟩ := hsuffix
  obtain ⟨before', hbefore'⟩ := hsuffix'
  exact (List.append_inj' (hbefore.trans hbefore'.symm) hlength).2

/-! ## Turns -/

/-- The chunk that is written back next, with its entry. -/
theorem StateReady.writer {statusCode : Int} {version : Nat} {c : ChunkInfo AccessBlock}
    {rest : List (ChunkInfo AccessBlock)}
    (h : StateReady index heap₀ Resized entries m₀ heap (.writing statusCode version (c :: rest))) :
    ∃ e ∈ entries, c.ptr = e.1 ∧ ∃ c₀, Declared index heap₀ Resized e c₀ ∧
      Current e.2 (heap e.1) c₀ c := by
  obtain ⟨todo, hsuffix, hall⟩ := h
  obtain ⟨e, todo', ⟨c₀, hd, hc⟩, -, rfl⟩ := List.forall₂_cons_right_iff.mp hall
  exact ⟨e, hsuffix.subset List.mem_cons_self,
    (hc.kept.ptr : c.ptr = c₀.ptr).trans hd.ptr, c₀, hd, hc⟩

namespace RequestState

/-- A turn writes at most the chunk that is next. -/
theorem turn_heap (r : RequestState) : (∀ heap, (r.turn heap).2 = heap) ∨
    ∃ statusCode version c rest, r = writing statusCode version (c :: rest) := by
  cases r with
  | ended result => exact .inl fun _ => rfl
  | running program m =>
    left
    intro heap
    cases program with
    | ending result => cases result <;> rfl
    | step op next => rfl
  | writing statusCode version chunks =>
    cases chunks with
    | nil => exact .inl fun _ => rfl
    | cons c rest => exact .inr ⟨statusCode, version, c, rest, rfl⟩

theorem turn_writing (statusCode : Int) (version : Nat) (c : ChunkInfo AccessBlock)
    (rest : List (ChunkInfo AccessBlock)) (heap : Heap) :
    ((writing statusCode version (c :: rest)).turn heap).2 =
    Function.update heap c.ptr (attempt (c.writeToHeap version) (heap c.ptr)) := by
  simp only [turn]
  cases hwrite : c.writeToHeap version (heap c.ptr) with
  | error e =>
    rw [attempt_error hwrite]
    exact (Function.update_eq_self _ _).symm
  | ok chunk => rw [attempt_ok hwrite]

theorem turn_writing_state (statusCode : Int) (version : Nat) (c : ChunkInfo AccessBlock)
    (rest : List (ChunkInfo AccessBlock)) (heap : Heap) :
    ((writing statusCode version (c :: rest)).turn heap).1 =
    match c.writeToHeap version (heap c.ptr) with
      | .error e => ended (.error (escaping e))
      | .ok _ => writing statusCode version rest := by
  simp only [turn]
  cases c.writeToHeap version (heap c.ptr) with
  | error e => rfl
  | ok chunk => rfl

end RequestState

open RequestState

/-- All chunks of the heap are in their bounds. -/
def HeapInBounds (index : ChunkIndex) (heap₀ : Heap) (Resized : FullID → Prop)
    (heap : Heap) : Prop :=
  ∀ id, InBounds index heap₀ Resized id (heap id)

/-- A turn leaves the chunks in their bounds. -/
theorem StateReady.inBounds {r : RequestState}
    (h : StateReady index heap₀ Resized entries m₀ heap r)
    (hheap : HeapInBounds index heap₀ Resized heap) :
    HeapInBounds index heap₀ Resized (r.turn heap).2 := by
  obtain hsame | ⟨statusCode, version, c, rest, rfl⟩ := r.turn_heap
  · rwa [hsame]
  obtain ⟨e, -, hptr, c₀, hd, hc⟩ := h.writer
  rw [turn_writing, hptr]
  intro id
  obtain rfl | hne := eq_or_ne id e.1
  · rw [Function.update_self]
    cases hwrite : c.writeToHeap version (heap e.1) with
    | error x =>
      rw [attempt_error hwrite]
      exact hheap e.1
    | ok X =>
      rw [attempt_ok hwrite]
      exact (hd.writeToHeap (hheap e.1) hc hwrite).1
  · rw [Function.update_of_ne hne]
    exact hheap id

/-- After its own turn a request is where it should be. -/
theorem StateReady.own (hp : Prepared index heap₀ Resized entries m₀) {r : RequestState}
    (h : StateReady index heap₀ Resized entries m₀ heap r) :
    StateReady index heap₀ Resized entries m₀ (r.turn heap).2 (r.turn heap).1 := by
  cases r with
  | ended result => trivial
  | running program m =>
    obtain ⟨hstands, hdiscreet⟩ := h
    cases program with
    | ending result =>
      cases result with
      | error e => trivial
      | ok statusCode =>
        change ∃ todo, todo <:+ entries ∧
          List.Forall₂ (StandsFor index heap₀ Resized heap) todo m.writtenChunks
        unfold writtenChunks
        split
        · exact ⟨[], List.nil_suffix, .nil⟩
        · exact ⟨entries, List.suffix_refl entries, hp.standsFor hstands⟩
    | step op next => exact ⟨exec_stands hstands hdiscreet.1, hdiscreet.2 heap⟩
  | writing statusCode version chunks =>
    cases chunks with
    | nil => trivial
    | cons c rest =>
      rw [turn_writing, turn_writing_state]
      cases hwrite : c.writeToHeap version (heap c.ptr) with
      | error x => trivial
      | ok X =>
        obtain ⟨todo, hsuffix, hall⟩ := h
        obtain ⟨e, todo', ⟨c₀, hd, hc⟩, hrest, rfl⟩ := List.forall₂_cons_right_iff.mp hall
        have hptr : c.ptr = e.1 := (hc.kept.ptr : c.ptr = c₀.ptr).trans hd.ptr
        have hfirst : e.1 ∉ todo'.map Prod.fst :=
          (List.nodup_cons.mp (hp.nodup.sublist (hsuffix.sublist.map Prod.fst))).1
        refine ⟨todo', (List.suffix_cons e todo').trans hsuffix, ?_⟩
        refine List.forall₂_iff_get.mpr ⟨hrest.length_eq, fun i h₁ h₂ => ?_⟩
        obtain ⟨c₀', hd', hc'⟩ := hrest.get h₁ h₂
        have hne : (todo'.get ⟨i, h₁⟩).1 ≠ c.ptr := by
          rw [hptr]
          exact fun heq => hfirst (heq ▸ List.mem_map_of_mem (List.get_mem todo' ⟨i, h₁⟩))
        refine ⟨c₀', hd', ?_⟩
        rwa [Function.update_of_ne hne]

/-- What another request does to chunks that it does not tell apart. -/
theorem StateReady.frame {r : RequestState} (h : StateReady index heap₀ Resized entries m₀ heap r)
    (ha : ∀ e ∈ entries, ChunksAgree AsksBytes e.2 (heap e.1) (heap' e.1)) :
    StateReady index heap₀ Resized entries m₀ heap' r := by
  cases r with
  | ended result => trivial
  | running program m =>
    refine ⟨h.1.mono fun c₀ c ⟨e, he, hd, hc⟩ => ?_, h.2⟩
    exact ⟨e, he, hd, hc.agree hd.built (ha e he)⟩
  | writing statusCode version chunks =>
    obtain ⟨todo, hsuffix, hall⟩ := h
    refine ⟨todo, hsuffix, List.forall₂_iff_get.mpr ⟨hall.length_eq, fun i h₁ h₂ => ?_⟩⟩
    obtain ⟨c₀, hd, hc⟩ := hall.get h₁ h₂
    exact ⟨c₀, hd, hc.agree hd.built (ha _ (hsuffix.subset (List.get_mem todo ⟨i, h₁⟩)))⟩

/-- A turn in two runs that are alike. -/
theorem StateReady.congr (hp : Prepared index heap₀ Resized entries m₀) {r r' : RequestState}
    (h : StateReady index heap₀ Resized entries m₀ heap r)
    (h' : StateReady index heap₀ Resized entries m₀ heap r') (hsame : r.Alike r') :
    (r.turn heap).1.Alike (r'.turn heap).1 ∧ (r.turn heap).2 = (r'.turn heap).2 := by
  cases hsame with
  | ended => exact ⟨.ended, rfl⟩
  | @running program m m' hm =>
    cases program with
    | ending result =>
      cases result with
      | error e => exact ⟨.ended, rfl⟩
      | ok statusCode =>
        have hchunks : List.Forall₂ SameInfo m.writtenChunks m'.writtenChunks := by
          unfold writtenChunks
          rw [hm.currentVersion]
          split
          · exact .nil
          · exact hm.maps.chunkInfos
        simp only [turn, hm.currentVersion]
        exact ⟨.writing hchunks, trivial⟩
    | step op next =>
      obtain ⟨hresult, hm'⟩ := exec_mates (hp.mates h.1 h'.1 hm fun e _ => .refl _) h.2.1
      simp only [turn, hresult]
      exact ⟨.running hm', trivial⟩
  | @writing statusCode version chunks chunks' hchunks =>
    obtain ⟨todo, hsuffix, hall⟩ := h
    obtain ⟨todo', hsuffix', hall'⟩ := h'
    obtain rfl := todo_eq hsuffix hsuffix' hall hall' hchunks
    cases hchunks with
    | nil => exact ⟨.ended, rfl⟩
    | @cons c c' rest rest' hc hrest =>
      obtain ⟨e, todo', he, -, rfl⟩ := List.forall₂_cons_right_iff.mp hall
      obtain ⟨he', -⟩ := List.forall₂_cons.mp hall'
      have hwrite := writeToHeap_alike he he' hc version
      rw [turn_writing, turn_writing, turn_writing_state, turn_writing_state, attempt, attempt,
        hwrite, hc.ptr]
      cases c'.writeToHeap version (heap c'.ptr) with
      | error x => exact ⟨.ended, rfl⟩
      | ok X => exact ⟨.writing hrest, rfl⟩

/-! ## Two requests -/

/-- The entries that two requests have for one chunk do not collide. -/
def Independent (index : ChunkIndex)
    (entries entries' : List (FullID × List (Int × AccessBlockInfo))) : Prop :=
  ∀ e ∈ entries, ∀ e' ∈ entries', e'.1 = e.1 →
    ¬ BlocksCollide (index.getSizeLowerBound e.1) e.2 e'.2

theorem Independent.symm (h : Independent index entries entries') :
    Independent index entries' entries := by
  intro e' he' e he hid hcol
  exact h e he e' he' hid.symm (hid ▸ hcol.symm)

theorem Prepared.sizesFit (hp : Prepared index heap₀ Resized entries m₀)
    {e : FullID × List (Int × AccessBlockInfo)} (he : e ∈ entries) :
    SizesFit e.2 := by
  obtain ⟨c₀, -, hd⟩ := forall₂_mem_left hp.declared he
  exact hd.sizesFit

/-- The turn of another request changes nothing that a request sees. -/
theorem StateReady.agree (hp : Prepared index heap₀ Resized entries m₀)
    (hind : Independent index entries entries')
    (hheap : HeapInBounds index heap₀ Resized heap) {r' : RequestState}
    (h' : StateReady index heap₀ Resized entries' m₀' heap r') :
    ∀ e ∈ entries, ChunksAgree AsksBytes e.2 (heap e.1) ((r'.turn heap).2 e.1) := by
  intro e he
  obtain hsame | ⟨statusCode, version, c', rest, rfl⟩ := r'.turn_heap
  · rw [hsame]
    exact .refl _
  obtain ⟨e', he', hptr, c₀', hd', hc'⟩ := h'.writer
  rw [turn_writing, hptr]
  obtain hid | hne := eq_or_ne e.1 e'.1
  · rw [hid, Function.update_self]
    cases hwrite : c'.writeToHeap version (heap e'.1) with
    | error x =>
      rw [attempt_error hwrite]
      exact .refl _
    | ok X =>
      rw [attempt_ok hwrite]
      exact hd'.agree (hp.sizesFit he) (hheap e'.1) (hind.symm e' he' e he hid) hc' hwrite
  · rw [Function.update_of_ne hne]
    exact .refl _

/-- Write-backs of two requests to one chunk. -/
theorem writers_swap (hind : Independent index entries entries')
    (hheap : HeapInBounds index heap₀ Resized heap)
    {statusCode statusCode' : Int} {version version' : Nat} {c c' : ChunkInfo AccessBlock}
    {rest rest' : List (ChunkInfo AccessBlock)}
    (h : StateReady index heap₀ Resized entries m₀ heap (.writing statusCode version (c :: rest)))
    (h' : StateReady index heap₀ Resized entries' m₀' heap
      (.writing statusCode' version' (c' :: rest'))) (hptr : c.ptr = c'.ptr) :
    Swaps (c.writeToHeap version) (c'.writeToHeap version') (heap c.ptr) := by
  obtain ⟨e, he, hid, c₀, hd, hc⟩ := h.writer
  obtain ⟨e', he', hid', c₀', hd', hc'⟩ := h'.writer
  have hsame : e'.1 = e.1 := by rw [← hid', ← hptr, hid]
  rw [hid]
  exact writeToHeap_swaps hd hd' hsame (hheap e.1) hc (hsame ▸ hc') (hind e he e' he' hsame)
    version version'

/-- A turn does the same before and after the turn of another request. -/
theorem StateReady.next_alike (hp : Prepared index heap₀ Resized entries m₀)
    (hind : Independent index entries entries')
    (hheap : HeapInBounds index heap₀ Resized heap) {r r' : RequestState}
    (h : StateReady index heap₀ Resized entries m₀ heap r)
    (h' : StateReady index heap₀ Resized entries' m₀' heap r') :
    (r.turn heap).1.Alike (r.turn (r'.turn heap).2).1 := by
  have ha := h'.agree hp hind hheap
  cases r with
  | ended result => exact .ended
  | running program m =>
    cases program with
    | ending result =>
      cases result with
      | error e => exact .ended
      | ok statusCode => exact .refl _
    | step op next =>
      have hframe := h.frame ha
      obtain ⟨hresult, hm⟩ := exec_mates (hp.mates h.1 hframe.1 (Related.same m) ha) h.2.1
      simp only [turn, hresult]
      exact .running hm
  | writing statusCode version chunks =>
    cases chunks with
    | nil => exact .ended
    | cons c rest =>
      rw [turn_writing_state, turn_writing_state]
      have hsame : ∀ x, c.writeToHeap version (heap c.ptr) = .error x ↔
          c.writeToHeap version ((r'.turn heap).2 c.ptr) = .error x := by
        intro x
        obtain hsame | ⟨statusCode', version', c', rest', rfl⟩ := r'.turn_heap
        · rw [hsame]
        rw [turn_writing]
        obtain hptr | hne := eq_or_ne c.ptr c'.ptr
        · have hswaps := writers_swap hind hheap h h' hptr
          rw [← hptr, Function.update_self]
          cases hwrite : c'.writeToHeap version' (heap c.ptr) with
          | error y => rw [attempt_error hwrite]
          | ok X =>
            rw [attempt_ok hwrite]
            exact (hswaps.left X hwrite x).symm
        · rw [Function.update_of_ne hne]
      cases hfirst : c.writeToHeap version (heap c.ptr) with
      | error x =>
        rw [(hsame x).mp hfirst]
        exact .ended
      | ok X =>
        cases hsecond : c.writeToHeap version ((r'.turn heap).2 c.ptr) with
        | error x =>
          rw [(hsame x).mpr hsecond] at hfirst
          cases hfirst
        | ok X' => exact .refl _

/-- The heap is the same after two turns in both orders. -/
theorem StateReady.heap_comm (hind : Independent index entries entries')
    (hheap : HeapInBounds index heap₀ Resized heap)
    {r r' : RequestState} (h : StateReady index heap₀ Resized entries m₀ heap r)
    (h' : StateReady index heap₀ Resized entries' m₀' heap r') :
    (r.turn (r'.turn heap).2).2 = (r'.turn (r.turn heap).2).2 := by
  obtain hsame | ⟨statusCode, version, c, rest, rfl⟩ := r.turn_heap
  · rw [hsame, hsame]
  obtain hsame' | ⟨statusCode', version', c', rest', rfl⟩ := r'.turn_heap
  · rw [hsame', hsame']
  simp only [turn_writing]
  obtain hptr | hne := eq_or_ne c.ptr c'.ptr
  · have hswaps := (writers_swap hind hheap h h' hptr).attempt
    rw [← hptr]
    simp only [Function.update_self, Function.update_idem]
    rw [hswaps]
  · rw [Function.update_of_ne hne, Function.update_of_ne hne.symm]
    exact Function.update_comm hne.symm _ _ heap

end
end Argennon
